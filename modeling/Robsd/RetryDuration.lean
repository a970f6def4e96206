import Robsd.Resume
import Robsd.StepSelect
import Robsd.TotalDuration

/-!
The duration of a step that is executed again because its exit code was 125
(`duration_retry` in util.sh): the time each execution takes is added to what
the row says about the executions before it.
-/
namespace Robsd.RetryDuration
open Robsd.Strings
open Robsd.Scheduler (Entry endName)
open Robsd.Shell
open Robsd.Steps
open Robsd.StepFormat
open Robsd.StepCommand
open Robsd.StepMap (Store ListOf Represents Row.entry)
open Robsd.StepShell
open Robsd.StepRecord
open Robsd.Execution
open Robsd.Building
open Robsd.Resume
open Robsd.TotalDuration (arith arith_text)
open Robsd.Transition

/-! ## The times -/

/-- `duration_retry`, which runs in a subshell. -/
def durationRetry (sh : Interpreter) (id : Nat) (name : Str) (file : Str) (vars : Vars) : Int64 :=
  match stepEval sh (.offset id) file vars with
  | none => 0
  | some vars =>
    if stepValue sh vars .name = name ∧ testEq (stepValue sh vars .exit) 125
      then 0+arith (stepValue sh vars .duration) else 0

/-- An execution by `step_exec_job`: when it began and, unless it was cut off, when
    it ended and the exit code recorded. -/
structure Attempt where
  id : Nat
  t₀ : Int64
  ended : Option (Int64 × Int64)
  deriving DecidableEq, Repr

def Attempt.elapsed (a : Attempt) : Int64 :=
  match a.ended with
  | some (t₁,_) => t₁-a.t₀
  | none => 0

/-- The execution ended with 125. -/
def Attempt.retried (a : Attempt) : Bool := a.ended.any fun e => e.2 = 125

/-- The local variables `_t0` and `_duration_retry` of a job, and the number of
    executions before it. -/
structure Locals where
  t₀ : Int64
  durationRetry : Int64
  before : Nat

/-- A build with the variables of its jobs and with all executions so far, the
    latest first. -/
structure Timed where
  state : State
  locals : Nat → Locals
  attempts : List Attempt

/-- The actions of a build; the writes of a job come with what `date` prints. -/
inductive TimedAction where
  | record (i : Nat) (stamp : Stamp) (t₀ : Int64) (vars : Vars)
  | complete (i : Nat) (exit hook : UInt8) (stamp : Stamp) (t₁ : Int64)
  | other (a : Action)

/-- Whether a job writes. -/
def writes : Action → Bool
  | .record _ _ => true
  | .complete _ _ _ _ => true
  | _ => false

/-- The execution of a job has ended. -/
def endAttempt (attempts : List Attempt) (l : Locals) (t₁ exit : Int64) : List Attempt :=
  attempts.modify (attempts.length-1-l.before) fun a => { a with ended := some (t₁,exit) }

def timedStep (b : Setup) (t : Timed) : TimedAction → Option Timed
  | .record i stamp t₀ vars =>
    t.state.jobs[i]?.bind fun j => (step b t.state (.record i stamp)).map fun s =>
      -- The loop itself writes the row of the end step.
      if j.isEnd then { t with state := s }
      else
        let retry := durationRetry b.sh j.entry.id (toArg j.entry.name).str t.state.file vars
        ⟨s,Function.update t.locals i ⟨t₀,retry,t.attempts.length⟩,⟨j.entry.id,t₀,none⟩ :: t.attempts⟩
  | .complete i exit hook stamp t₁ =>
    t.state.jobs[i]?.bind fun j =>
      if j.isEnd then (step b t.state (.complete i exit hook stamp)).map fun s => { t with state := s }
      else
        let l := t.locals i
        (step b t.state (.complete i exit hook { stamp with duration := t₁-l.t₀+l.durationRetry })).map fun s =>
          { t with state := s, attempts := endAttempt t.attempts l t₁ (Int64.ofNat (exitCode exit hook)) }
  | .other a => if writes a then none else (step b t.state a).map fun s => { t with state := s }

/-- A build with times from its first invocation on. -/
def timed (b : Setup) : System Timed TimedAction where
  start t := t = ⟨⟨[],b.mark b.skips,[]⟩,fun _ => ⟨0,0,0⟩,[]⟩
  step := timedStep b

def TimedAction.Plain : TimedAction → Prop
  | .record _ stamp _ _ => stamp.Plain
  | .complete _ _ _ stamp _ => stamp.Plain
  | .other a => a.Plain

/-- The duration in the row of a step. -/
def recordedDuration (file : Str) (id : Int) : Option Int64 :=
  match stepsParse file with
  | .ok sf => (stepsFindById sf.steps id).map fun st => st.integer .duration
  | .error _ => none

/-- Only the step with the given number is executed. -/
def Only (k : Nat) (t : Timed) (a : TimedAction) : Prop :=
  a.Plain ∧ match a with
    | .record i _ _ _ => ∀ j, t.state.jobs[i]? = some j → j.entry.id = k
    | .complete i _ _ _ _ => ∀ j, t.state.jobs[i]? = some j → j.entry.id = k
    | .other _ => True

/-! ## The build below -/

theorem record_below {b : Setup} {t t' : Timed} {i : Nat} {stamp : Stamp} {t₀ : Int64} {vars : Vars}
    (taken : timedStep b t (.record i stamp t₀ vars) = some t') : step b t.state (.record i stamp) = some t'.state := by
  simp only [timedStep,Option.bind_eq_some_iff,Option.map_eq_some_iff] at taken
  obtain ⟨j,_,s,taken,rfl⟩ := taken
  split_ifs <;> exact taken

theorem complete_below {b : Setup} {t t' : Timed} {i : Nat} {exit hook : UInt8} {stamp : Stamp} {t₁ : Int64}
    (words : stamp.Plain) (taken : timedStep b t (.complete i exit hook stamp t₁) = some t') :
    ∃ stamp' : Stamp, stamp'.Plain ∧ step b t.state (.complete i exit hook stamp') = some t'.state := by
  simp only [timedStep,Option.bind_eq_some_iff] at taken
  obtain ⟨j,_,taken⟩ := taken
  split at taken
  · obtain ⟨s,below,rfl⟩ := Option.map_eq_some_iff.mp taken
    exact ⟨stamp,words,below⟩
  · obtain ⟨s,below,rfl⟩ := Option.map_eq_some_iff.mp taken
    exact ⟨{ stamp with duration := t₁-(t.locals i).t₀+(t.locals i).durationRetry },
      ⟨words.log,words.user,words.owned⟩,below⟩

theorem other_below {b : Setup} {t t' : Timed} {a : Action} (taken : timedStep b t (.other a) = some t') :
    writes a = false ∧ step b t.state a = some t'.state := by
  simp only [timedStep,Bool.not_eq_true,Option.ite_none_left_eq_some,Option.map_eq_some_iff] at taken
  obtain ⟨idle,s,taken,rfl⟩ := taken
  exact ⟨idle,taken⟩

/-- The step of the build that a step with times takes. -/
theorem timedStep_step {b : Setup} {t t' : Timed} {a : TimedAction} (taken : timedStep b t a = some t')
    (plain : a.Plain) :
    ∃ a', a'.Plain ∧ step b t.state a' = some t'.state := by
  cases a with
  | record i stamp t₀ vars => exact ⟨.record i stamp,plain,record_below taken⟩
  | complete i exit hook stamp t₁ =>
    obtain ⟨stamp',words,below⟩ := complete_below plain taken
    exact ⟨.complete i exit hook stamp',words,below⟩
  | other a => exact ⟨a,plain,(other_below taken).2⟩

/-- The executions are timed in every build, and it does nothing else. -/
theorem timed_refines {b : Setup} {t : Timed} (reached : (timed b).Reaches (fun _ a => a.Plain) t) :
    (build b).Reaches (fun _ a => a.Plain) t.state := by
  induction reached with
  | start first =>
    rw [show _ = _ from first]
    exact .start rfl
  | step _ plain taken ih =>
    obtain ⟨a,words,below⟩ := timedStep_step taken plain
    exact .step ih words below

/-! ## Reading the row -/

theorem listOf_unique {file : Str} {m m' : Store} (first : ListOf file m) (second : ListOf file m') : m = m' := by
  obtain ⟨sf,rows,parsed,shape,represents⟩ := first
  obtain ⟨sf',rows',parsed',shape',represents'⟩ := second
  rw [parsed,Except.ok.injEq] at parsed'
  subst parsed'
  have same := (List.map_injective_iff.mpr fun _ _ => toStep_injective) (shape.symm.trans shape')
  subst same
  funext id
  rw [StepMap.find_entry represents,StepMap.find_entry represents']

theorem recordedDuration_eq {file : Str} {m : Store} (here : ListOf file m) (id : Int) :
    recordedDuration file id = (m id).map fun e => e.duration := by
  obtain ⟨sf,rows,parsed,shape,represents⟩ := here
  simp only [recordedDuration,parsed,shape,stepsFindById_rows,StepMap.find_entry represents,Option.map_map]
  rfl

section
variable {file : Str} {m : Store} (listed : ListOf file m) (wordy : Store.Wordy m)
include listed wordy

/-- Where no row is missing before it, `duration_retry` reads the row of the step. -/
theorem durationRetry_eq (sh : Interpreter) {k : Nat} (positive : 0 < k) {name : Str} (vars : Vars)
    (before : ∀ id : Int, 0 < id → id < k → m id ≠ none) (later : ∀ id e, m id = some e → (k : Int) < id → e.exit ≠ 125)
    (nonempty : name ≠ []) (named : ∀ e, m k = some e → e.name = name) :
    durationRetry sh k name file vars = ((m k).elim 0 fun e => if echoOption name = false ∧
      e.exit = 125 then e.duration else 0) := by
  obtain ⟨rows,represents,parsed⟩ := parsed_rows listed wordy
  obtain ⟨i,rfl⟩ : ∃ i, k = i+1 := ⟨k-1,by omega⟩
  have entry : ∀ r ∈ rows, m r.id = some (Row.entry r) :=
    fun r member => (represents.entries _ _).mpr ⟨r,member,rfl,rfl⟩
  have ascending : (rows.map Row.id).Pairwise (· < ·) := List.pairwise_map.mpr represents.ordered
  have above : ∀ id ∈ rows.map Row.id, 0 < id := by
    intro id member
    obtain ⟨r,inside,rfl⟩ := List.mem_map.mp member
    exact (wordy.positive _ _ (entry r inside)).1
  have exits : ∀ (r : Row) (vars : Vars), testEq (stepValue sh (rowVars r vars) .exit) 125 = true ↔ r.exit = 125 := by
    intro r vars
    rw [testEq,stepValue_number sh r vars (show r.text .exit = Decimal.decimal r.exit.toInt from rfl),numeric_decimal,
      decide_eq_true_eq,Option.some.injEq]
    exact Int64.toInt_inj (y := 125)
  have read : ∀ (r : Row) (vars : Vars), 0+arith (stepValue sh (rowVars r vars) .duration) = r.duration := by
    intro r vars
    rw [stepValue_number sh r vars (show r.text .duration = Decimal.decimal r.duration.toInt from rfl),
      arith_text,Int64.zero_add]
  have eval : stepEval sh (.offset ((i+1 : Nat) : Int)) file vars = rows[i]?.map fun r => rowVars r vars :=
    stepEval_nth parsed sh vars i
  simp only [durationRetry,eval]
  cases row : m ((i+1 : Nat) : Int) with
  | some e =>
    have all : ∀ id, 0 < id → id ≤ (0 : Int)+i+1 → id ∈ rows.map Row.id := by
      intro id low high
      have listed' : m id ≠ none := by
        by_cases last : id = ((i+1 : Nat) : Int)
        · rw [last,row]
          simp
        · exact before id low (by omega)
      obtain ⟨e',there⟩ := Option.ne_none_iff_exists'.mp listed'
      obtain ⟨r,inside,rfl,_⟩ := (represents.entries _ _).mp there
      exact List.mem_map_of_mem inside
    have place := (StepSelect.ascending_place ascending above i).mpr all
    rw [List.getElem?_map,Option.map_eq_some_iff] at place
    obtain ⟨r,at_,number⟩ := place
    have same := entry r (List.mem_of_getElem? at_)
    rw [number,show (0 : Int)+i+1 = ((i+1 : Nat) : Int) by omega,row,Option.some.injEq] at same
    subst same
    have name' : stepValue sh (rowVars r vars) .name = name ↔ echoOption name = false := by
      have own : r.text .name = name := named _ row
      rw [stepValue_rowVars sh r vars (wordy_text (parsed.wordy r (List.mem_of_getElem? at_)) .name),own,echoed]
      cases echoOption name with
      | true => exact iff_of_false nonempty.symm (by decide)
      | false => simp
    simp only [at_,Option.map_some,name',exits,read,Option.elim_some]
    rfl
  | none =>
    cases at_ : rows[i]? with
    | none => simp
    | some r =>
      have inside := List.mem_of_getElem? at_
      have low := StepSelect.ascending_lower ascending above (n := i) (by rw [List.getElem?_map,at_]; rfl)
      have other : r.id ≠ ((i+1 : Nat) : Int) := by
        intro same
        rw [← same,entry r inside] at row
        cases row
      have passed : r.exit ≠ 125 := later r.id _ (entry r inside) (by omega)
      simp only [Option.map_some,exits,passed,and_false,↓reduceIte,Option.elim_none]

end

/-! ## Executions in the foreground -/

/-- All executions are in the foreground, and the script is within the loop as long
    as one of them is not done. -/
structure Foreground (s : State) : Prop where
  pids : ∀ j ∈ s.jobs, j.pid = none
  active : ∀ j ∈ s.jobs, j.isDone = false → ∃ l, s.phase = .looping l

section
variable {b : Setup} (plain : b.Plain) (sequential : ∀ x ∈ b.steps, x.parallel = false)

/-- Then one that is not done is the last. -/
theorem undone_last {s : State} {m : Store} (base : Base b s m) (front : Foreground s) {i : Nat} {j : Job}
    (at_ : s.jobs[i]? = some j) (undone : j.isDone = false) :
    i+1 = s.jobs.length ∧ Marked b b.skips m := by
  have inside := List.mem_of_getElem? at_
  obtain ⟨l,looping⟩ := front.active j inside undone
  have here := base.here
  rw [looping] at here
  exact ⟨(here.2.2.foreground i j at_ (front.pids j inside) undone).1,here.1⟩

include plain sequential in
/-- No step of the list is executed in the background. -/
theorem launched_foreground {s : State} {m : Store} (base : Base b s m) {l l' : Scheduler.State}
    (looping : s.phase = .looping l) {a : Scheduler.Action} {vars : Vars}
    (taken : Scheduler.step b.ncpu b.reboot (b.skipped s.file vars) l a = some l') :
    launched l a = [] ∨ ∃ e, launched l a = [⟨none,e,.begun⟩] := by
  have here := base.here
  rw [looping] at here
  obtain ⟨marked,⟨before,split,_,_⟩,loop⟩ := here
  rw [skipped_eq plain base.file base.rows marked] at taken
  obtain ⟨list,safe⟩ := loop.safe
  rcases Scheduler.step_todo taken with ⟨e,todo,⟨pid,rfl,fork⟩ | ⟨rfl,starting⟩⟩ | ⟨e,rfl,_,_⟩ | ⟨_,noFork,noBegin⟩
  · have kind := safe.kind
    rw [fork] at kind
    have member : e ∈ b.steps := by simp [split,todo]
    have parallel := sequential e member
    rw [show e.parallel = true from kind] at parallel
    cases parallel
  · exact .inr ⟨e,by simp [launched,starting]⟩
  · exact .inl rfl
  · exact .inl (launched_other noFork noBegin)

/-- A job that is changed remains in the foreground. -/
theorem foreground_set {s : State} (front : Foreground s) {i : Nat} {j : Job} (at_ : s.jobs[i]? = some j)
    {st : Stage} {file : Str} (undone : Job.isDone ⟨j.pid,j.entry,st⟩ = false → j.isDone = false) :
    Foreground ⟨file,s.phase,s.jobs.set i ⟨j.pid,j.entry,st⟩⟩ := by
  have inside := List.mem_of_getElem? at_
  refine ⟨?_,?_⟩
  · intro j' member
    rcases List.mem_or_eq_of_mem_set member with old | rfl
    · exact front.pids j' old
    · exact front.pids j inside
  · intro j' member active
    rcases List.mem_or_eq_of_mem_set member with old | rfl
    · exact front.active j' old active
    · exact front.active j inside (undone active)

theorem foreground_done {s : State} (front : Foreground s) (done : ∀ j ∈ s.jobs, j.isDone = true) (phase : Phase) :
    Foreground ⟨s.file,phase,s.jobs⟩ :=
  ⟨front.pids,fun j member undone => by rw [done j member] at undone; cases undone⟩

theorem foreground_idle (file : Str) (phase : Phase) : Foreground ⟨file,phase,[]⟩ := ⟨by simp,by simp⟩

include plain sequential in
theorem foreground_step {s s' : State} {m : Store} (base : Base b s m) (front : Foreground s) {a : Action}
    (words : a.Plain) (taken : step b s a = some s') :
    Foreground s' := by
  cases a with
  | mark stamp =>
    obtain ⟨_,_,_,_,rfl,_⟩ := base_mark plain base words taken
    exact foreground_idle _ _
  | sched vars a =>
    obtain ⟨file,phase,jobs⟩ := s
    cases phase with
    | marking _ => cases taken
    | ended => cases taken
    | looping l =>
      simp only [step,Option.ite_none_right_eq_some,Option.map_eq_some_iff] at taken
      obtain ⟨_,l',taken,rfl⟩ := taken
      refine ⟨?_,fun _ _ _ => ⟨l',rfl⟩⟩
      intro j member
      rcases List.mem_append.mp member with old | new
      · exact front.pids j old
      · rcases launched_foreground plain sequential base rfl taken with none | ⟨e,some⟩
        · rw [none] at new
          cases new
        · rw [some,List.mem_singleton] at new
          rw [new]
  | record i stamp =>
    obtain ⟨j,_,_,at_,stage,_,_,rfl,_⟩ := base_record plain base words taken
    exact foreground_set front at_ fun _ => by simp [Job.isDone,stage]
  | complete i exit hook stamp =>
    obtain ⟨j,_,_,at_,stage,_,_,_,rfl,_⟩ := base_complete plain base words taken
    exact foreground_set front at_ fun _ => by simp [Job.isDone,stage]
  | hook code =>
    obtain ⟨_,_,e,d,_,_,_,last,rfl,_⟩ := base_hook base taken
    rw [List.getLast?_eq_getElem?] at last
    exact foreground_set front last (fun impossible => by cases impossible)
  | retry vars =>
    obtain ⟨l,looping,stop,_,⟨_,_,_,rfl⟩ | ⟨rfl,_⟩⟩ := base_retry plain base taken
    all_goals
      have here := base.here
      rw [looping] at here
      exact foreground_done front (stopped_done here.2.2 stop) _
  | leave =>
    obtain ⟨file,phase,jobs⟩ := s
    simp only [step] at taken
    split at taken
    · next code _ =>
      simp only [Option.ite_none_right_eq_some,Option.some.injEq] at taken
      obtain ⟨_,rfl⟩ := taken
      refine foreground_done front ?_ .ended
      intro j member
      by_contra undone
      obtain ⟨i,within,rfl⟩ := List.getElem_of_mem member
      obtain ⟨_,e,sync⟩ := base.here.2.2.foreground i _ (List.getElem?_eq_getElem within) (front.pids _ member)
        (eq_false_of_ne_true undone)
      cases sync
    · cases taken
  | cut =>
    cases taken
    exact foreground_idle _ _
  | resume vars =>
    obtain ⟨_,_,_,_,⟨_,rfl⟩ | rfl⟩ := base_resume plain base taken
    all_goals exact foreground_idle _ _

/-- A job in the foreground is recorded when all before it are done. -/
theorem foreground_orderly {s : State} {m : Store} (base : Base b s m) (front : Foreground s) {a : Action}
    (words : a.Plain) {s' : State} (taken : step b s a = some s') :
    Orderly s a := by
  refine ⟨words,?_⟩
  cases a with
  | record i stamp =>
    simp only [step] at taken
    cases at_ : s.jobs[i]? with
    | none => simp [at_] at taken
    | some j =>
      simp only [at_,Option.ite_none_right_eq_some] at taken
      have last := (undone_last base front at_ (by simp [Job.isDone,taken.1])).1
      apply List.all_eq_true.mpr
      intro j' member
      by_contra undone
      obtain ⟨k,within,rfl⟩ := List.getElem_of_mem member
      rw [List.length_take] at within
      rw [List.getElem_take] at undone
      have last' := (undone_last base front (List.getElem?_eq_getElem (by omega)) (eq_false_of_ne_true undone)).1
      omega
  | _ => rfl

end

/-! ## The accumulated duration -/

/-- Whether `echo` prints the name of a step. -/
def shown (b : Setup) (k : Nat) : Bool := b.steps.all fun x => x.id ≠ k || !echoOption x.name

/-- The time taken by the latest executions of a step as far as they ended with 125, if
    its row is recognised. -/
def carried (b : Setup) (k : Nat) : List Attempt → Int64
  | [] => 0
  | a :: before => if shown b k ∧ a.id = k ∧ a.retried then a.elapsed+carried b k before else 0

theorem carried_hidden {b : Setup} {k : Nat} (hidden : shown b k = false) (attempts : List Attempt) :
    carried b k attempts = 0 := by
  cases attempts with
  | nil => rfl
  | cons a before => simp [carried,hidden]

/-- What the row of the latest execution says. -/
def Outcome (b : Setup) (a : Attempt) (before : List Attempt) (e : StepMap.Entry) : Prop :=
  match a.ended with
  | some (_,exit) => e.exit = exit ∧ e.duration = a.elapsed+carried b a.id before
  | none => e.exit = -1

/-- The executions so far have rows and are in the order of the steps, the row of the
    latest says how it ended, and a job that has begun knows what to add. -/
structure Clocked (b : Setup) (t : Timed) (m : Store) : Prop where
  steps : ∀ a ∈ t.attempts, ∃ x ∈ b.steps, x.id = a.id ∧ x.name ≠ endName
  executed : ∀ a ∈ t.attempts, Executed m a.id
  sorted : t.attempts.Pairwise fun a before => before.id ≤ a.id
  latest : ∀ a before, t.attempts = a :: before → ∃ e, m a.id = some e ∧ Outcome b a before e
  running : ∀ i j, t.state.jobs[i]? = some j → j.stage = .recorded → j.isEnd = false →
    ∃ before, t.attempts = ⟨j.entry.id,(t.locals i).t₀,none⟩ :: before ∧ (t.locals i).before = before.length ∧
      (t.locals i).durationRetry = carried b j.entry.id before
  retried : ∀ id e, m id = some e → e.exit = 125 → ∃ a ∈ t.attempts, (a.id : Int) = id
  marks : ∀ id e, m id = some e → StepRecord.Entry.skipped e = true → e.duration = 0

section
variable {b : Setup} {t : Timed} {m : Store}

/-- No row is written. -/
theorem clocked_same (here : Clocked b t m) {s : State}
    (jobs : ∀ (i : Nat) (j : Job), s.jobs[i]? = some j → j.stage = .recorded → t.state.jobs[i]? = some j) :
    Clocked b { t with state := s } m :=
  ⟨here.steps,here.executed,here.sorted,here.latest,fun i j at_ stage =>
    here.running i j (jobs i j at_ stage) stage,here.retried,here.marks⟩

/-- A row is written that belongs to none of the executions. -/
theorem clocked_other (here : Clocked b t m) {id : Int} (other : ∀ a ∈ t.attempts, (a.id : Int) ≠ id)
    {e : StepMap.Entry} (exit : e.exit ≠ 125) (mark : StepRecord.Entry.skipped e = true → e.duration = 0)
    {s : State}
    (jobs : ∀ (i : Nat) (j : Job), s.jobs[i]? = some j → j.stage = .recorded → j.isEnd = false →
      t.state.jobs[i]? = some j) :
    Clocked b { t with state := s } (Function.update m id (some e)) := by
  refine ⟨here.steps,?_,here.sorted,?_,fun i j at_ stage own =>
    here.running i j (jobs i j at_ stage own) stage own,?_,?_⟩
  · intro a member
    obtain ⟨e',listed,unskipped⟩ := here.executed a member
    exact ⟨e',by rw [Function.update_of_ne (other a member),listed],unskipped⟩
  · intro a before shape
    obtain ⟨e',listed,outcome⟩ := here.latest a before shape
    exact ⟨e',by rw [Function.update_of_ne (other a (by simp [show t.attempts = _ from shape])),listed],outcome⟩
  · intro id' e' listed failed
    by_cases same : id' = id
    · subst same
      rw [Function.update_self,Option.some.injEq] at listed
      exact absurd (listed ▸ failed) exit
    · rw [Function.update_of_ne same] at listed
      exact here.retried id' e' listed failed
  · intro id' e' listed marked
    by_cases same : id' = id
    · subst same
      rw [Function.update_self,Option.some.injEq] at listed
      exact listed ▸ mark (listed ▸ marked)
    · rw [Function.update_of_ne same] at listed
      exact here.marks id' e' listed marked

/-- An execution begins. -/
theorem clocked_begin (here : Clocked b t m) {i : Nat} {j : Job} (member : j.entry ∈ b.steps)
    (own : j.entry.name ≠ endName) (top : ∀ id, Executed m id → id ≤ j.entry.id) {e : StepMap.Entry}
    (exit : e.exit = -1) (unskipped : StepRecord.Entry.skipped e = false) {s : State}
    (jobs : ∀ (k : Nat) (j' : Job), s.jobs[k]? = some j' → j'.stage = .recorded → k = i ∧ j'.entry = j.entry)
    {t₀ retry : Int64} (known : retry = carried b j.entry.id t.attempts) :
    Clocked b ⟨s,Function.update t.locals i ⟨t₀,retry,t.attempts.length⟩,⟨j.entry.id,t₀,none⟩ :: t.attempts⟩
      (Function.update m j.entry.id (some e)) := by
  refine ⟨?_,?_,?_,?_,?_,?_,?_⟩
  · intro a inside
    rcases List.mem_cons.mp inside with rfl | old
    · exact ⟨j.entry,member,rfl,own⟩
    · exact here.steps a old
  · intro a inside
    by_cases same : (a.id : Int) = j.entry.id
    · rw [same]
      exact ⟨e,Function.update_self _ _ _,unskipped⟩
    · rcases List.mem_cons.mp inside with rfl | old
      · exact absurd rfl same
      · obtain ⟨e',listed,executed⟩ := here.executed a old
        exact ⟨e',by rw [Function.update_of_ne same,listed],executed⟩
  · refine List.pairwise_cons.mpr ⟨?_,here.sorted⟩
    intro a old
    exact_mod_cast top a.id (here.executed a old)
  · rintro a before shape
    obtain ⟨rfl,rfl⟩ := List.cons.inj shape
    exact ⟨e,Function.update_self _ _ _,exit⟩
  · intro k j' at_ stage _
    obtain ⟨rfl,same⟩ := jobs k j' at_ stage
    rw [same]
    exact ⟨t.attempts,by simp,by simp,by simp [known]⟩
  · intro id e' listed failed
    by_cases same : id = j.entry.id
    · exact ⟨_,List.mem_cons_self,same.symm⟩
    · rw [Function.update_of_ne same] at listed
      obtain ⟨a,inside,number⟩ := here.retried id e' listed failed
      exact ⟨a,List.mem_cons_of_mem _ inside,number⟩
  · intro id e' listed marked
    by_cases same : id = j.entry.id
    · rw [same,Function.update_self,Option.some.injEq] at listed
      rw [← listed,unskipped] at marked
      cases marked
    · rw [Function.update_of_ne same] at listed
      exact here.marks id e' listed marked

/-- An execution ends. -/
theorem clocked_end (here : Clocked b t m) {i : Nat} {j : Job} (at_ : t.state.jobs[i]? = some j)
    (stage : j.stage = .recorded) (own : j.isEnd = false) {t₁ exit : Int64} {e : StepMap.Entry}
    (code : e.exit = exit) (duration : e.duration = t₁-(t.locals i).t₀+(t.locals i).durationRetry)
    (unskipped : StepRecord.Entry.skipped e = false) {s : State}
    (jobs : ∀ (k : Nat) (j' : Job), s.jobs[k]? = some j' → j'.stage ≠ .recorded) :
    Clocked b { t with state := s, attempts := endAttempt t.attempts (t.locals i) t₁ exit }
      (Function.update m j.entry.id (some e)) := by
  obtain ⟨before,shape,length,retry⟩ := here.running i j at_ stage own
  have ended : endAttempt t.attempts (t.locals i) t₁ exit = ⟨j.entry.id,(t.locals i).t₀,some (t₁,exit)⟩ :: before := by
    simp [endAttempt,shape,length]
  have executed := here.executed
  have steps := here.steps
  have sorted := here.sorted
  have retried := here.retried
  rw [shape] at executed steps sorted retried
  rw [ended]
  refine ⟨?_,?_,?_,?_,fun k j' at' stage' => absurd stage' (jobs k j' at'),?_,?_⟩
  · intro a inside
    rcases List.mem_cons.mp inside with rfl | old
    · exact steps ⟨j.entry.id,(t.locals i).t₀,none⟩ (by simp)
    · exact steps a (List.mem_cons_of_mem _ old)
  · intro a inside
    by_cases same : (a.id : Int) = j.entry.id
    · rw [same]
      exact ⟨e,Function.update_self _ _ _,unskipped⟩
    · rcases List.mem_cons.mp inside with rfl | old
      · exact absurd rfl same
      · obtain ⟨e',listed,executed⟩ := executed a (List.mem_cons_of_mem _ old)
        exact ⟨e',by rw [Function.update_of_ne same,listed],executed⟩
  · exact List.pairwise_cons.mpr (List.pairwise_cons.mp sorted)
  · rintro a before' same
    obtain ⟨rfl,rfl⟩ := List.cons.inj same
    refine ⟨e,Function.update_self _ _ _,code,?_⟩
    rw [duration,retry]
    rfl
  · intro id e' listed failed
    by_cases same : id = j.entry.id
    · exact ⟨_,List.mem_cons_self,same.symm⟩
    · rw [Function.update_of_ne same] at listed
      obtain ⟨a,inside,number⟩ := retried id e' listed failed
      rcases List.mem_cons.mp inside with rfl | old
      · exact absurd number.symm same
      · exact ⟨a,List.mem_cons_of_mem _ old,number⟩
  · intro id e' listed marked
    by_cases same : id = j.entry.id
    · rw [same,Function.update_self,Option.some.injEq] at listed
      rw [← listed,unskipped] at marked
      cases marked
    · rw [Function.update_of_ne same] at listed
      exact here.marks id e' listed marked

end

section
variable {b : Setup} (plain : b.Plain) (sequential : ∀ x ∈ b.steps, x.parallel = false)
  (distinct : (b.steps.map Entry.name).Nodup)

include plain distinct in
/-- A step whose name is in `SKIP` is the one it was put there for. -/
theorem skip_marked {x : Entry} (member : x ∈ b.steps) (skip : b.skip x.name = true) :
    (decimalArg x.id,toArg x.name) ∈ b.skips := by
  obtain ⟨p,inside,named⟩ := List.any_eq_true.mp skip
  obtain ⟨y,step,rfl⟩ := plain.skips p inside
  have same : y.name = x.name := by
    rw [← (plain_name plain step).1,← (plain_name plain member).1]
    exact of_decide_eq_true named
  rwa [List.inj_on_of_nodup_map distinct step member same] at inside

variable {t t' : Timed} {m : Store}

include plain distinct in
/-- Before a step that is executed no row is missing. -/
theorem rows_before (base : Base b t.state m) (settled : Resumable b t.state m) (front : Foreground t.state)
    {i : Nat} {j : Job} (at_ : t.state.jobs[i]? = some j) (undone : j.isDone = false) {id : Int}
    (low : 0 < id) (high : id < j.entry.id) :
    m id ≠ none := by
  have inside := List.mem_of_getElem? at_
  obtain ⟨last,marked⟩ := undone_last base front at_ undone
  have bounds := id_bounds (base.steps _ (List.mem_map_of_mem inside)).1
  have within : id.toNat-1 < b.steps.length := by omega
  have number : (b.steps[id.toNat-1].id : Int) = id := by
    rw [b.numbered _ within]
    omega
  have member := List.getElem_mem within
  rw [← number]
  cases skip : b.skip b.steps[id.toNat-1].name with
  | true => exact marked _ member (skip_marked plain distinct member skip)
  | false =>
    rcases settled.earlier j inside _ member skip (by omega) with ⟨e,listed,_⟩ | ⟨j',inside',undone',same⟩
    · rw [listed]
      simp
    · obtain ⟨k,within',rfl⟩ := List.getElem_of_mem inside'
      have last' := (undone_last base front (List.getElem?_eq_getElem within') undone').1
      have here : i = k := by omega
      subst here
      rw [List.getElem?_eq_getElem within',Option.some.injEq] at at_
      rw [at_] at same
      rw [same] at high
      omega

/-- The name of a step is shown unless it is an option. -/
theorem shown_step {x : Entry} (member : x ∈ b.steps) : shown b x.id = !echoOption x.name := by
  rw [shown,Bool.eq_iff_iff,List.all_eq_true]
  constructor
  · intro all
    simpa using all x member
  · intro kept y step
    by_cases same : y.id = x.id
    · rw [same_step step member same,kept,Bool.or_true]
    · simp [same]

include plain distinct in
/-- `duration_retry` finds what the executions to be repeated have taken. -/
theorem durationRetry_carried (base : Base b t.state m) (settled : Resumable b t.state m)
    (front : Foreground t.state) (here : Clocked b t m) {i : Nat} {j : Job} (at_ : t.state.jobs[i]? = some j)
    (undone : j.isDone = false) (vars : Vars) :
    durationRetry b.sh j.entry.id (toArg j.entry.name).str t.state.file vars = carried b j.entry.id t.attempts := by
  have inside := List.mem_of_getElem? at_
  have member := (base.steps _ (List.mem_map_of_mem inside)).1
  have top := settled.first j inside undone
  have failed : ∀ id e, m id = some e → e.exit = 125 → id ≤ j.entry.id := by
    intro id e listed failed
    obtain ⟨a,known,rfl⟩ := here.retried id e listed failed
    exact top _ (here.executed a known)
  have bounds := id_bounds member
  rw [durationRetry_eq base.file (entries_wordy plain base.rows) b.sh (by omega) vars
    (fun id low high => rows_before plain distinct base settled front at_ undone low high)
    (fun id e listed above code => absurd (failed id e listed code) (by omega)) (plain_name plain member).2.2 ?_]
  · have own := shown_step member
    rw [(plain_name plain member).1]
    cases option : echoOption j.entry.name with
    | true =>
      rw [option] at own
      rw [carried_hidden own]
      cases m j.entry.id <;> simp
    | false =>
    rw [option] at own
    cases attempts : t.attempts with
    | nil =>
      cases row : m j.entry.id with
      | none => rfl
      | some e =>
        have passed : e.exit ≠ 125 := by
          intro code
          obtain ⟨a,known,_⟩ := here.retried _ e row code
          rw [attempts] at known
          cases known
        simp [carried,passed]
    | cons a before =>
      obtain ⟨e,row,outcome⟩ := here.latest a before attempts
      by_cases same : a.id = j.entry.id
      · rw [← same,row,Option.elim_some]
        unfold Outcome at outcome
        cases ended : a.ended with
        | none =>
          rw [ended] at outcome
          rw [show e.exit = -1 from outcome]
          simp [carried,Attempt.retried,ended]
        | some end_ =>
          obtain ⟨t₁,exit⟩ := end_
          rw [ended] at outcome
          obtain ⟨code,duration⟩ := outcome
          simp only [code,duration,carried,same,own,Bool.not_false,Attempt.retried,ended,Option.any_some,
            decide_eq_true_eq,true_and]
      · have passed : ∀ e, m j.entry.id = some e → e.exit ≠ 125 := by
          intro e' row' code
          obtain ⟨a',known,number⟩ := here.retried _ e' row' code
          have low := top _ (here.executed a (by simp [attempts]))
          have sorted := here.sorted
          rw [attempts] at known sorted
          rcases List.mem_cons.mp known with rfl | old
          · exact same (by omega)
          · have := List.rel_of_pairwise_cons sorted old
            omega
        rw [carried,if_neg fun all => same all.2.1]
        cases row' : m j.entry.id with
        | none => rfl
        | some e' => simp [passed e' row']
  · intro e listed
    obtain ⟨y,step,number,name,_⟩ := base.rows.listed _ e listed
    rw [name,same_step step member (by omega),(plain_name plain member).1]

/-- What holds throughout a build with times. -/
def Invariant (b : Setup) (t : Timed) : Prop :=
  ∃ m, Base b t.state m ∧ Resumable b t.state m ∧ Foreground t.state ∧ Clocked b t m

/-- Writing leaves at most the changed job recorded. -/
theorem recorded_set {s : State} (base : Base b s m) (front : Foreground s) {i : Nat} {j : Job}
    (at_ : s.jobs[i]? = some j) (undone : j.isDone = false) {st : Stage} {k : Nat} {j' : Job}
    (at' : (s.jobs.set i ⟨j.pid,j.entry,st⟩)[k]? = some j') (stage : j'.stage = .recorded) :
    k = i ∧ j' = ⟨j.pid,j.entry,st⟩ := by
  by_cases same : i = k
  · subst same
    rw [List.getElem?_set_self (List.getElem?_eq_some_iff.mp at_).1,Option.some.injEq] at at'
    exact ⟨rfl,at'.symm⟩
  · rw [List.getElem?_set_ne same] at at'
    have last := (undone_last base front at_ undone).1
    have last' := (undone_last base front at' (by simp [Job.isDone,stage])).1
    omega

include plain sequential in
/-- The other steps write nothing, except for marks. -/
theorem other_step {s s' : State} (base : Base b s m) {a : Action} (idle : writes a = false)
    (taken : step b s a = some s') :
    (∃ stamp, a = .mark stamp) ∨ s'.file = s.file ∧ ∀ (i : Nat) (j : Job), s'.jobs[i]? = some j →
      j.stage = .recorded → s.jobs[i]? = some j := by
  cases a with
  | mark stamp => exact .inl ⟨stamp,rfl⟩
  | record i stamp => cases idle
  | complete i exit hook stamp => cases idle
  | sched vars a =>
    obtain ⟨file,phase,jobs⟩ := s
    cases phase with
    | marking _ => cases taken
    | ended => cases taken
    | looping l =>
      simp only [step,Option.ite_none_right_eq_some,Option.map_eq_some_iff] at taken
      obtain ⟨_,l',taken,rfl⟩ := taken
      refine .inr ⟨rfl,?_⟩
      intro i j at_ stage
      by_cases old : i < jobs.length
      · rwa [List.getElem?_append_left old] at at_
      · rw [List.getElem?_append_right (by omega)] at at_
        rcases launched_foreground plain sequential base rfl taken with none | ⟨e,some⟩
        · simp [none] at at_
        · rw [some] at at_
          rw [List.mem_singleton.mp (List.mem_of_getElem? at_)] at stage
          cases stage
  | hook code =>
    obtain ⟨_,_,e,d,_,_,_,last,rfl,_⟩ := base_hook base taken
    refine .inr ⟨rfl,?_⟩
    intro i j at_ stage
    by_cases same : s.jobs.length-1 = i
    · rw [List.getLast?_eq_getElem?] at last
      rw [← same,List.getElem?_set_self (List.getElem?_eq_some_iff.mp last).1,Option.some.injEq] at at_
      rw [← at_] at stage
      cases stage
    · rwa [List.getElem?_set_ne same] at at_
  | retry vars =>
    obtain ⟨_,_,_,_,⟨_,_,_,rfl⟩ | ⟨rfl,_⟩⟩ := base_retry plain base taken
    all_goals exact .inr ⟨rfl,fun _ _ at_ _ => at_⟩
  | leave =>
    obtain ⟨_,rfl⟩ := base_leave base taken
    exact .inr ⟨rfl,fun _ _ at_ _ => at_⟩
  | cut =>
    cases taken
    exact .inr ⟨rfl,fun _ _ at_ _ => by simp at at_⟩
  | resume vars =>
    obtain ⟨_,_,_,_,⟨_,rfl⟩ | rfl⟩ := base_resume plain base taken
    all_goals exact .inr ⟨rfl,fun _ _ at_ _ => by simp at at_⟩

/-- The end step is none of the executions. -/
theorem end_other (here : Clocked b t m) {j : Job} (member : j.entry ∈ b.steps) (own : j.isEnd = true) :
    ∀ a ∈ t.attempts, (a.id : Int) ≠ j.entry.id := by
  intro a known same
  obtain ⟨x,step,number,different⟩ := here.steps a known
  rw [same_step step member (by omega)] at different
  simp only [Job.isEnd,Bool.and_eq_true,decide_eq_true_eq] at own
  exact different own.2

include plain distinct in
theorem record_clocked (base : Base b t.state m) (settled : Resumable b t.state m)
    (front : Foreground t.state) (here : Clocked b t m) {i : Nat} {stamp : Stamp} {t₀ : Int64} {vars : Vars}
    (words : stamp.Plain) (taken : timedStep b t (.record i stamp t₀ vars) = some t') {m' : Store}
    (listed : ListOf t'.state.file m') :
    Clocked b t' m' := by
  simp only [timedStep,Option.bind_eq_some_iff,Option.map_eq_some_iff] at taken
  obtain ⟨j,at_,s,wrote,rfl⟩ := taken
  obtain ⟨_,e,file,at',stage,entered,exit,rfl,base'⟩ := base_record plain base words wrote
  rw [at_,Option.some.injEq] at at'
  subst at'
  have inside := List.mem_of_getElem? at_
  have undone : j.isDone = false := by simp [Job.isDone,stage]
  have member := (base.steps _ (List.mem_map_of_mem inside)).1
  have notFailed : e.exit ≠ 125 := by rw [exit]; decide
  cases own : j.isEnd with
  | true =>
    simp only [own,↓reduceIte] at listed ⊢
    rw [listOf_unique listed base'.file]
    refine clocked_other here (end_other here member own) notFailed ?_ ?_
    · intro marked
      rw [entered.skipped] at marked
      cases marked
    · intro k j' at' stage' own'
      obtain ⟨_,rfl⟩ := recorded_set base front at_ undone at' stage'
      rw [show j.isEnd = false from own'] at own
      cases own
  | false =>
    simp only [own,Bool.false_eq_true,↓reduceIte] at listed ⊢
    rw [listOf_unique listed base'.file]
    refine clocked_begin here member ?_ (settled.first j inside undone) exit entered.skipped ?_
      (durationRetry_carried plain distinct base settled front here at_ undone vars)
    · intro end_
      simp [Job.isEnd,front.pids j inside,end_] at own
    · intro k j' at' stage'
      obtain ⟨rfl,rfl⟩ := recorded_set base front at_ undone at' stage'
      exact ⟨rfl,rfl⟩

include plain in
theorem complete_clocked (base : Base b t.state m) (front : Foreground t.state) (here : Clocked b t m)
    {i : Nat} {exit hook : UInt8} {stamp : Stamp} {t₁ : Int64} (words : stamp.Plain)
    (taken : timedStep b t (.complete i exit hook stamp t₁) = some t') {m' : Store}
    (listed : ListOf t'.state.file m') :
    Clocked b t' m' := by
  simp only [timedStep,Option.bind_eq_some_iff] at taken
  obtain ⟨j,at_,taken⟩ := taken
  have inside := List.mem_of_getElem? at_
  have member := (base.steps _ (List.mem_map_of_mem inside)).1
  have none : ∀ {s : State} {file : Str},
    s = ⟨file,t.state.phase,t.state.jobs.set i { j with stage := b.finished j exit hook }⟩ →
      j.isDone = false → ∀ (k : Nat) (j' : Job), s.jobs[k]? = some j' → j'.stage ≠ .recorded := by
    rintro _ _ rfl undone k j' at' stage'
    obtain ⟨rfl,rfl⟩ := recorded_set base front at_ undone at' stage'
    have finished : b.finished j exit hook = .recorded := stage'
    unfold Setup.finished at finished
    split at finished <;> cases finished
  cases own : j.isEnd with
  | true =>
    simp only [own,↓reduceIte,Option.map_eq_some_iff] at taken
    obtain ⟨s,wrote,rfl⟩ := taken
    obtain ⟨_,e,file,at',stage,entered,code,_,shape,base'⟩ := base_complete plain base words wrote
    rw [at_,Option.some.injEq] at at'
    subst at'
    rw [own,if_pos rfl] at code
    rw [listOf_unique listed base'.file]
    refine clocked_other here (end_other here member own) (by rw [code]; decide) ?_ fun k
      j' at' stage' _ => ?_
    · intro marked
      rw [entered.skipped] at marked
      cases marked
    · exact absurd stage' (none shape (by simp [Job.isDone,stage]) k j' at')
  | false =>
    simp only [own,Bool.false_eq_true,↓reduceIte,Option.map_eq_some_iff] at taken
    obtain ⟨s,wrote,rfl⟩ := taken
    have words' : Stamp.Plain { stamp with duration := t₁-(t.locals i).t₀+(t.locals i).durationRetry } :=
      ⟨words.log,words.user,words.owned⟩
    obtain ⟨_,e,file,at',stage,entered,code,duration,shape,base'⟩ := base_complete plain base words' wrote
    rw [at_,Option.some.injEq] at at'
    subst at'
    rw [own,if_neg (by simp)] at code
    rw [listOf_unique listed base'.file]
    exact clocked_end here at_ stage own code duration entered.skipped (none shape (by simp [Job.isDone,stage]))

include plain sequential in
theorem other_clocked (base : Base b t.state m) (here : Clocked b t m) {a : Action} (words : a.Plain)
    (taken : timedStep b t (.other a) = some t') {m' : Store} (listed : ListOf t'.state.file m') : Clocked b t' m' := by
  simp only [timedStep,Option.ite_none_left_eq_some,Bool.not_eq_true,Option.map_eq_some_iff] at taken
  obtain ⟨idle,s,taken,rfl⟩ := taken
  rcases other_step plain sequential base idle taken with ⟨stamp,rfl⟩ | ⟨file,jobs⟩
  · obtain ⟨x,e,_,_,rfl,skip,_,⟨exit,duration⟩,member,base'⟩ := base_mark plain base words taken
    rw [listOf_unique listed base'.file]
    have notFailed : e.exit ≠ 125 := by
      rw [exit]
      decide
    refine clocked_other here (fun a known same => ?_) notFailed (fun _ => duration) fun i j at_ => ?_
    case refine_2 => cases at_
    obtain ⟨e',row,unskipped⟩ := here.executed a known
    obtain ⟨y,step,number,_,marked⟩ := base.rows.listed _ e' row
    rw [unskipped,same_step step member (by omega),skip] at marked
    cases marked
  · rw [file] at listed
    rw [listOf_unique listed base.file]
    exact clocked_same here jobs

include plain sequential distinct in
theorem step_invariant (invariant : Invariant b t) {a : TimedAction} (words : a.Plain)
    (taken : timedStep b t a = some t') :
    Invariant b t' := by
  obtain ⟨m,base,settled,front,here⟩ := invariant
  obtain ⟨a',words',below⟩ := timedStep_step taken words
  obtain ⟨m',base',settled'⟩ := step_resumable plain base settled (foreground_orderly base front words' below) below
  refine ⟨m',base',settled',foreground_step plain sequential base front words' below,?_⟩
  cases a with
  | record i stamp t₀ vars => exact record_clocked plain distinct base settled front here words taken base'.file
  | complete i exit hook stamp t₁ => exact complete_clocked plain base front here words taken base'.file
  | other a => exact other_clocked plain sequential base here words taken base'.file

include plain sequential distinct in
theorem reached_invariant (reached : (timed b).Reaches (fun _ a => a.Plain) t) : Invariant b t := by
  refine invariant (I := Invariant b) ?_ (fun _ _ _ here words taken =>
    step_invariant plain sequential distinct here words taken) reached
  rintro _ rfl
  exact ⟨_,base_start plain,resumable_start plain,foreground_idle _ _,by simp,by simp,.nil,by simp,
    by simp,by simp,by simp⟩

/-! ## The rows of the other steps -/

/-- The marks are in the file. -/
def Ahead (b : Setup) (file : Str) : Prop := ∃ m, ListOf file m ∧ Marked b b.skips m

/-- A row is written whose duration does not change, or does not count. -/
theorem others_update {file file' : Str} {m : Store} (listed : ListOf file m) (marked : Marked b b.skips m)
    {id : Int} {e : StepMap.Entry} (listed' : ListOf file' (Function.update m id (some e))) {k : Nat}
    (kept : id ≠ k → (m id).map (fun e => e.duration) = some e.duration) :
    Ahead b file' ∧ ∀ id : Int, id ≠ k → recordedDuration file' id = recordedDuration file id := by
  refine ⟨⟨_,listed',fun y step mark => update_known (marked y step mark)⟩,?_⟩
  intro id' other
  rw [recordedDuration_eq listed',recordedDuration_eq listed]
  by_cases own : id' = id
  · rw [own,Function.update_self,kept (own ▸ other),Option.map_some]
  · rw [Function.update_of_ne own]

include plain sequential distinct in
/-- What only one step writes leaves the durations of the others alone. -/
theorem step_others (here : Invariant b t) (ahead : Ahead b t.state.file) {k : Nat} {a : TimedAction}
    (only : Only k t a) (taken : timedStep b t a = some t') :
    Ahead b t'.state.file ∧ ∀ id : Int, id ≠ k → recordedDuration t'.state.file id =
      recordedDuration t.state.file id := by
  obtain ⟨m,base,_,_,clocked⟩ := here
  obtain ⟨_,listed,marked⟩ := ahead
  rw [listOf_unique listed base.file] at marked
  obtain ⟨words,own⟩ := only
  cases a with
  | record i stamp t₀ vars =>
    obtain ⟨j,e,file,at_,_,_,_,_,base'⟩ := base_record plain base words (record_below taken)
    exact others_update base.file marked base'.file fun other => absurd (by rw [own j at_]) other
  | complete i exit hook stamp t₁ =>
    obtain ⟨stamp',words',below⟩ := complete_below words taken
    obtain ⟨j,e,file,at_,_,_,_,_,_,base'⟩ := base_complete plain base words' below
    exact others_update base.file marked base'.file fun other => absurd (by rw [own j at_]) other
  | other a =>
    obtain ⟨idle,below⟩ := other_below taken
    rcases other_step plain sequential base idle below with ⟨stamp,rfl⟩ | ⟨file,_⟩
    · obtain ⟨x,e,_,_,_,skip,_,⟨_,duration⟩,member,base'⟩ := base_mark plain base words below
      -- The mark is there already.
      apply others_update base.file marked base'.file
      intro _
      obtain ⟨old,row⟩ := Option.ne_none_iff_exists'.mp (marked x member (skip_marked plain distinct member skip))
      obtain ⟨y,step,number,_,flag⟩ := base.rows.listed _ old row
      rw [same_step step member (by omega),skip] at flag
      rw [row,Option.map_some,clocked.marks _ old row flag,duration]
    · rw [file]
      exact ⟨⟨m,base.file,marked⟩,fun _ _ => rfl⟩

/-- Executions that were to be repeated add up. -/
theorem carried_append {k : Nat} (known : shown b k = true) {retries earlier : List Attempt}
    (again : ∀ a ∈ retries, a.id = k ∧ a.retried = true)
    (first : ∀ a ∈ earlier.head?, ¬ (a.id = k ∧ a.retried = true)) :
    carried b k (retries ++ earlier) = (retries.map Attempt.elapsed).sum := by
  induction retries with
  | nil =>
    cases earlier with
    | nil => rfl
    | cons a earlier =>
      rw [List.nil_append,carried,if_neg fun all => first a rfl all.2]
      rfl
  | cons a retries ih =>
    rw [List.cons_append,carried,if_pos ⟨known,again a (by simp)⟩,ih fun a' member =>
      again a' (List.mem_cons_of_mem _ member)]
    rfl

include plain sequential distinct in
/-- In a sequential build, let a step be executed several times in a row, every time
    but the last one ending with 125 and none being cut off. Then the durations of all
    other steps are what they were, and the duration in its row is what the executions
    have taken altogether, if `echo` prints its name or all but the last took no time. -/
theorem retried_duration {t₀ : Timed} (before : (timed b).Reaches (fun _ a => a.Plain) t₀)
    (looping : ∃ l, t₀.state.phase = .looping l) {k : Nat} (run : ((timed b).startedIn t₀).Reaches (Only k) t)
    {streak : List Attempt} (attempts : t.attempts = streak ++ t₀.attempts) (tried : streak ≠ [])
    (own : ∀ a ∈ streak, a.id = k) (finished : ∀ a ∈ streak, a.ended.isSome = true)
    (again : ∀ a ∈ streak.tail, a.retried = true)
    (first : ∀ a ∈ t₀.attempts.head?, ¬ (a.id = k ∧ a.retried = true)) :
    recordedDuration t.state.file k = some (streak.map Attempt.elapsed).sum ∧
      (∀ id : Int, id ≠ k → recordedDuration t.state.file id = recordedDuration t₀.state.file id) ↔
    shown b k = true ∨ (streak.tail.map Attempt.elapsed).sum = 0 := by
  have others : ∀ id : Int, id ≠ k → recordedDuration t.state.file id = recordedDuration t₀.state.file id := by
    have start : Ahead b t₀.state.file := by
      obtain ⟨m,base,_,_,_⟩ := reached_invariant plain sequential distinct before
      obtain ⟨l,looping⟩ := looping
      have here := base.here
      rw [looping] at here
      exact ⟨m,base.file,here.1⟩
    have kept := invariant (I := fun t => Invariant b t ∧ Ahead b t.state.file ∧
      ∀ id : Int, id ≠ k → recordedDuration t.state.file id = recordedDuration t₀.state.file id)
        (S := (timed b).startedIn t₀) (C := Only k)
      (by rintro _ rfl; exact ⟨reached_invariant plain sequential distinct before,start,fun _ _ => rfl⟩)
      (fun t a t' ⟨here,ahead,others⟩ only taken => by
        obtain ⟨ahead',others'⟩ := step_others plain sequential distinct here ahead only taken
        exact ⟨step_invariant plain sequential distinct here only.1 taken,ahead',fun id other =>
          (others' id other).trans (others id other)⟩) run
    exact kept.2.2
  obtain ⟨m,base,_,_,here⟩ := reached_invariant plain sequential distinct
    (reaches_continued before (fun _ _ only => only.1) run)
  obtain ⟨a,retries,rfl⟩ := List.exists_cons_of_ne_nil tried
  obtain ⟨e,row,outcome⟩ := here.latest a (retries ++ t₀.attempts) attempts
  obtain ⟨end_,ended⟩ := Option.isSome_iff_exists.mp (finished a (by simp))
  rw [Outcome,ended] at outcome
  have same := own a (by simp)
  have recorded : recordedDuration t.state.file k = some (a.elapsed+carried b k (retries ++ t₀.attempts)) := by
    rw [recordedDuration_eq base.file,← same,row,Option.map_some,outcome.2]
  rw [and_iff_left others,recorded,Option.some.injEq,List.map_cons,List.sum_cons,Int64.add_right_inj,List.tail_cons]
  cases known : shown b k with
  | true => simp [carried_append known (fun a' member =>
    ⟨own a' (List.mem_cons_of_mem _ member),again a' member⟩) first]
  | false => simp [carried_hidden known,eq_comm]

end

/-! ## A step that is executed twice -/

/-- Two steps, the second of which is skipped, and the end. -/
def twice : Setup := plainSetup 1 [⟨1,"a".toList,false⟩,⟨2,"b".toList,false⟩,⟨3,endName,false⟩]
  [(decimalArg 2,toArg "b".toList)] (by decide)

theorem twice_plain : twice.Plain :=
  ⟨by decide,by decide,fun p member => ⟨⟨2,"b".toList,false⟩,by decide,List.mem_singleton.mp member⟩,by decide⟩

/-- Whether an action has plain words and writes for the first step only. -/
def onlyFirst (t : Timed) : TimedAction → Bool
  | .record i stamp _ _ => decide stamp.Plain && t.state.jobs[i]?.all fun j => j.entry.id = 1
  | .complete i _ _ stamp _ => decide stamp.Plain && t.state.jobs[i]?.all fun j => j.entry.id = 1
  | .other a => decide a.Plain

theorem onlyFirst_only (t : Timed) (a : TimedAction) (only : onlyFirst t a = true) : Only 1 t a := by
  cases a with
  | other a =>
    have words : a.Plain := of_decide_eq_true only
    exact ⟨words,trivial⟩
  | _ =>
    obtain ⟨words,own⟩ := Bool.and_eq_true_iff.mp only
    have words := of_decide_eq_true words
    refine ⟨words,?_⟩
    intro j at_
    rw [at_] at own
    exact of_decide_eq_true own

def untilFirst : List TimedAction := [.other (.mark stamp),.other (.sched noVars .read),.other (.sched noVars .begin)]

/-- It takes three seconds, ends with 125, and takes five seconds. -/
def bothTimes : List TimedAction := [
  .record 0 stamp 10 noVars,.complete 0 125 0 stamp 13,.other (.sched noVars (.finish 125)),
  .other (.retry noVars),.other (.sched noVars .read),.other (.sched noVars .begin),
  .record 1 stamp 20 noVars,.complete 1 0 0 stamp 25]

theorem retried_duration_sample : ∃ t₀ t : Timed, (timed twice).Reaches (fun _ a => a.Plain) t₀ ∧
    ((timed twice).startedIn t₀).Reaches (Only 1) t ∧ recordedDuration t.state.file 1 = some 8 ∧
    ∀ id : Int, id ≠ 1 → recordedDuration t.state.file id = recordedDuration t₀.state.file id := by
  have ran : (((timed twice).runIf onlyFirst ⟨⟨[],twice.mark twice.skips,[]⟩,fun _ => ⟨0,0,0⟩,[]⟩ untilFirst).bind
    fun t₀ =>
      (((timed twice).startedIn t₀).runIf onlyFirst t₀ bothTimes).map fun t => (t₀.state.pc,t₀.attempts,t.attempts)) =
        some (some (.sync ⟨1,"a".toList,false⟩),[],[⟨1,20,some (25,0)⟩,⟨1,10,some (13,125)⟩]) := by decide +kernel
  obtain ⟨t₀,begun,ran⟩ := Option.bind_eq_some_iff.mp ran
  obtain ⟨t,ran,seen⟩ := Option.map_eq_some_iff.mp ran
  obtain ⟨pc,none,attempts⟩ : t₀.state.pc = _ ∧ t₀.attempts = _ ∧ t.attempts = _ := by simpa using seen
  have before : (timed twice).Reaches (fun _ a => a.Plain) t₀ :=
    reaches_runIf (fun s a only => (onlyFirst_only s a only).1) (.start rfl) begun
  have run := reaches_runIf (S := (timed twice).startedIn t₀) onlyFirst_only (.start rfl) ran
  have looping : ∃ l, t₀.state.phase = .looping l := by
    unfold State.pc at pc
    split at pc
    · next l phase => exact ⟨l,phase⟩
    · cases pc
  have streak : t.attempts = [⟨1,20,some (25,0)⟩,⟨1,10,some (13,125)⟩] ++ t₀.attempts := by
    rw [attempts,none]
    rfl
  exact ⟨t₀,t,before,run,(retried_duration twice_plain (by decide) (by decide) before looping run streak
    (by simp) (by simp) (by simp) (by decide) (by simp [none])).mpr (.inl (by decide))⟩

/-- A step that `echo` takes for an option, and the end. -/
def hidden : Setup := plainSetup 1 [⟨1,"-e".toList,false⟩,⟨2,endName,false⟩] [] (by decide)

/-- It takes three seconds, the hook exits with 125, and it takes five seconds. -/
def hookTimes : List TimedAction := [
  .record 0 stamp 10 noVars,.complete 0 1 125 stamp 13,.other (.sched noVars (.finish 125)),
  .other (.retry noVars),.other (.sched noVars .read),.other (.sched noVars .begin),
  .record 1 stamp 20 noVars,.complete 1 1 0 stamp 25]

/-- The three seconds are lost. -/
theorem retried_duration_hidden : ∃ t₀ t : Timed, (timed hidden).Reaches (fun _ a => a.Plain) t₀ ∧ t₀.attempts = [] ∧
    ((timed hidden).startedIn t₀).Reaches (Only 1) t ∧ t.attempts = [⟨1,20,some (25,1)⟩,⟨1,10,some (13,125)⟩] ∧
    recordedDuration t.state.file 1 = some 5 ∧ (t.attempts.map Attempt.elapsed).sum = 8 := by
  have ran : (((timed hidden).runIf onlyFirst ⟨⟨[],hidden.mark hidden.skips,[]⟩,fun _ => ⟨0,0,0⟩,[]⟩
      [.other (.sched noVars .read),.other (.sched noVars .begin)]).bind fun t₀ =>
        (((timed hidden).startedIn t₀).runIf onlyFirst t₀ hookTimes).map fun t =>
          (t₀.attempts,t.attempts,recordedDuration t.state.file 1)) =
        some ([],[⟨1,20,some (25,1)⟩,⟨1,10,some (13,125)⟩],some 5) := by decide +kernel
  obtain ⟨t₀,begun,ran⟩ := Option.bind_eq_some_iff.mp ran
  obtain ⟨t,ran,seen⟩ := Option.map_eq_some_iff.mp ran
  obtain ⟨none,attempts,recorded⟩ : t₀.attempts = _ ∧ t.attempts = _ ∧
    recordedDuration t.state.file 1 = _ := by simpa using seen
  exact ⟨t₀,t,reaches_runIf (fun s a only => (onlyFirst_only s a only).1) (.start rfl) begun,none,
    reaches_runIf (S := (timed hidden).startedIn t₀) onlyFirst_only (.start rfl) ran,attempts,recorded,
      by rw [attempts]; decide⟩

end Robsd.RetryDuration
