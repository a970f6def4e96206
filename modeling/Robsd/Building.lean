import Robsd.Execution

/-!
What holds throughout a build with plain words: the file lists steps of the
build, each with the mark it should have, and the executions of an invocation
follow the list.
-/
namespace Robsd.Building
open Robsd.Strings
open Robsd.Decimal (decimal strtonum strtonum_decimal)
open Robsd.Scheduler (Entry Safe endName)
open Robsd.Shell
open Robsd.Steps
open Robsd.StepCommand
open Robsd.StepMap (Store ListOf)
open Robsd.StepShell
open Robsd.StepRecord
open Robsd.Execution
open Robsd.Transition

theorem toArg_word {s : Str} (word : Word s) : (toArg s).str = s :=
  List.filter_eq_self.mpr fun c member => by
    have plain := word c member
    by_contra special
    simp only [ne_eq,decide_not,Bool.not_eq_true',Bool.not_eq_false,decide_eq_true_eq] at special
    rw [special] at plain
    exact absurd plain (by decide)

theorem toArg_again (s : Str) : (toArg (toArg s).str).str = (toArg s).str := by
  simp [toArg]

/-! ## The file -/

/-- The file lists steps of the build, marked as `SKIP` says. -/
structure Entries (b : Setup) (m : Store) : Prop where
  listed : ∀ id e, m id = some e → ∃ x ∈ b.steps, id = x.id ∧ e.name = x.name ∧
    StepRecord.Entry.skipped e = b.skip x.name
  words : ∀ id e, m id = some e → Word e.log ∧ Word e.user

/-- A step was begun, in this invocation or an earlier one. -/
def Executed (m : Store) (id : Int) : Prop := ∃ e, m id = some e ∧ StepRecord.Entry.skipped e = false

/-- Marks are in the file. -/
def Marked (b : Setup) (skips : List (Arg × Arg)) (m : Store) : Prop :=
  ∀ x ∈ b.steps, (decimalArg x.id,toArg x.name) ∈ skips → m x.id ≠ none

section
variable {b : Setup} (plain : b.Plain) {m : Store}

theorem id_bounds {x : Entry} (member : x ∈ b.steps) : 0 < (x.id : Int) ∧ (x.id : Int) ≤ b.steps.length := by
  obtain ⟨i,within,rfl⟩ := List.getElem_of_mem member
  rw [b.numbered i within]
  omega

/-- The number of a step is its place in the list. -/
theorem id_place {before rest : List Entry} {x : Entry} (split : b.steps = before ++ x :: rest) :
    x.id = before.length+1 := by
  have within : before.length < b.steps.length := by simp [split]
  have numbered := b.numbered before.length within
  simpa [split] using numbered

theorem mem_before {before rest : List Entry} (split : b.steps = before ++ rest) {x : Entry} (member : x ∈ b.steps) :
    x ∈ before ↔ x.id ≤ before.length := by
  constructor
  · intro inside
    obtain ⟨first,last,rfl⟩ := List.append_of_mem inside
    have place := @id_place b first (last ++ rest) x (by simp [split])
    simp only [List.length_append,List.length_cons]
    omega
  · intro low
    rw [split] at member
    rcases List.mem_append.mp member with inside | outside
    · exact inside
    · obtain ⟨first,last,rfl⟩ := List.append_of_mem outside
      have place := @id_place b (before ++ first) last x (by simp [split])
      simp only [List.length_append] at place
      omega

theorem same_step {x y : Entry} (first : x ∈ b.steps) (second : y ∈ b.steps) (same : x.id = y.id) : x = y := by
  obtain ⟨i,within,rfl⟩ := List.getElem_of_mem first
  obtain ⟨j,within',rfl⟩ := List.getElem_of_mem second
  rw [b.numbered i within,b.numbered j within',Nat.add_right_cancel_iff] at same
  subst same
  rfl

include plain

theorem entries_wordy (entries : Entries b m) : Store.Wordy m := by
  refine ⟨?_,?_⟩
  · intro id e listed
    obtain ⟨x,member,_,named,_⟩ := entries.listed id e listed
    exact ⟨named ▸ plain.words x member,entries.words id e listed⟩
  · intro id e listed
    obtain ⟨x,member,rfl,_⟩ := entries.listed id e listed
    exact ⟨(id_bounds member).1,Int.le_trans (id_bounds member).2 plain.short⟩

/-- Once the marks are in the file, the loop skips what `SKIP` names. -/
theorem skipped_eq {file : Str} (here : ListOf file m) (entries : Entries b m) (marked : Marked b b.skips m)
    (vars : Vars) :
    b.skipped file vars = b.skip := by
  have own : ∀ name, b.skip (toArg name).str = b.skip name := fun name => by simp only [Setup.skip,toArg_again]
  funext name
  refine stepSkipped_name here (entries_wordy plain entries) b.sh vars ?_ ?_
  · intro id e listed named
    obtain ⟨x,_,_,same,skipped⟩ := entries.listed id e listed
    rw [skipped,← same,named,own]
  · intro skip
    obtain ⟨⟨id,arg⟩,member,same⟩ := List.any_eq_true.mp skip
    obtain ⟨x,step,pair⟩ := plain.skips _ member
    cases pair
    cases listed : m x.id with
    | none => exact absurd listed (marked x step member)
    | some e =>
      obtain ⟨y,step',number,named,_⟩ := entries.listed _ e listed
      have same' := same_step step step' (by omega)
      subst same'
      refine ⟨x.id,e,listed,?_⟩
      rw [named,← toArg_word (plain.words x step)]
      simpa using same

/-- A number lists the steps from it on. -/
theorem offset_decimal {k : Int} (positive : 0 < k) : b.offset (decimal k) = b.steps.drop (k.toNat-1) := by
  have short := plain.short
  unfold Setup.offset
  by_cases high : k ≤ intMax
  · rw [strtonum_decimal (by omega) high]
  · rw [List.drop_eq_nil_iff.mpr (by omega)]
    cases read : strtonum (decimal k) 1 intMax with
    | error e => rfl
    | ok n =>
      have same := Decimal.strtonum_decimal_ok read
      have bounds := Decimal.strtonum_bounds read
      omega

end

/-! ## The executions -/

/-- The step of every execution, in the order in which they began. -/
def entries (jobs : List Job) : List Entry := jobs.map Job.entry

/-- How the executions relate to the loop: those in the background that are not
    done still run, one in the foreground is the last of all, and after it the
    loop may stop with 125. -/
structure Loop (b : Setup) (jobs : List Job) (l : Scheduler.State) : Prop where
  safe : ∃ list, Safe b.ncpu b.skip list l
  background : ∀ j ∈ jobs, ∀ p, j.pid = some p → j.isDone = false → p ∈ l.running
  foreground : ∀ i j, jobs[i]? = some j → j.pid = none → j.isDone = false → i+1 = jobs.length ∧ ∃ e, l.pc = .sync e
  stopped : l.pc = .stopped 125 → l.running = [] ∧ ∃ e hook, jobs.getLast? = some ⟨none,e,.done 125 hook⟩

/-- The executions and the rows are not ahead of what was read. -/
def Place (b : Setup) (m : Store) (jobs : List Job) (l : Scheduler.State) : Prop :=
  ∃ before, b.steps = before ++ l.todo ∧ (∀ id, Executed m id → id ≤ before.length+1) ∧
    ∀ x ∈ entries jobs, x.id ≤ before.length+1

/-- What holds at the place the script has come to. -/
def Here (b : Setup) (m : Store) (jobs : List Job) : Phase → Prop
  | .marking rest => jobs = [] ∧ (∃ before, b.skips = before ++ rest ∧ Marked b before m) ∧ ∀ id, Executed m id → id ≤ 1
  | .looping l => Marked b b.skips m ∧ Place b m jobs l ∧ Loop b jobs l
  | .ended => True

structure Base (b : Setup) (s : State) (m : Store) : Prop where
  file : ListOf s.file m
  rows : Entries b m
  steps : ∀ x ∈ entries s.jobs, x ∈ b.steps ∧ b.skip x.name = false
  known : ∀ j ∈ s.jobs, j.stage ≠ .begun → m j.entry.id ≠ none
  sorted : (entries s.jobs).Pairwise fun x y => x.id ≤ y.id
  top : ∀ x, (entries s.jobs).getLast? = some x → ∀ id, Executed m id → id ≤ x.id
  marked : s.jobs ≠ [] ∨ (∃ id, Executed m id) → Marked b b.skips m
  here : Here b m s.jobs s.phase

theorem entries_set {jobs : List Job} {i : Nat} {j : Job} (at_ : jobs[i]? = some j) (st : Stage) :
    entries (jobs.set i { j with stage := st }) = entries jobs := by
  obtain ⟨within,rfl⟩ := List.getElem?_eq_some_iff.mp at_
  simp only [entries,List.map_set]
  apply List.ext_getElem (by simp)
  intro k _ _
  by_cases same : i = k
  · subst same
    simp
  · simp [same]

theorem executed_update {m : Store} {k : Int} {e : StepMap.Entry} {id : Int}
    (executed : Executed (Function.update m k (some e)) id) :
    id = k ∧ StepRecord.Entry.skipped e = false ∨ Executed m id := by
  obtain ⟨e',listed,unskipped⟩ := executed
  by_cases same : id = k
  · subst same
    rw [Function.update_self,Option.some.injEq] at listed
    exact .inl ⟨rfl,listed ▸ unskipped⟩
  · rw [Function.update_of_ne same] at listed
    exact .inr ⟨e',listed,unskipped⟩

theorem update_known {m : Store} {k : Int} {e : StepMap.Entry} {id : Int} (known : m id ≠ none) :
    Function.update m k (some e) id ≠ none := by
  by_cases same : id = k
  · subst same
    simp
  · rwa [Function.update_of_ne same]

/-- The entry of a step that is not skipped. -/
structure Entered (x : Entry) (e : StepMap.Entry) : Prop where
  name : e.name = x.name
  skipped : StepRecord.Entry.skipped e = false
  words : Word e.log ∧ Word e.user

theorem entries_update {b : Setup} {m : Store} (rows : Entries b m) {x : Entry} (member : x ∈ b.steps)
    {e : StepMap.Entry} (name : e.name = x.name) (skipped : StepRecord.Entry.skipped e = b.skip x.name)
    (words : Word e.log ∧ Word e.user) :
    Entries b (Function.update m x.id (some e)) := by
  refine ⟨?_,?_⟩
  · intro id e' listed
    by_cases same : id = x.id
    · subst same
      rw [Function.update_self,Option.some.injEq] at listed
      subst listed
      exact ⟨x,member,rfl,name,skipped⟩
    · rw [Function.update_of_ne same] at listed
      exact rows.listed id e' listed
  · intro id e' listed
    by_cases same : id = x.id
    · subst same
      rw [Function.update_self,Option.some.injEq] at listed
      exact listed ▸ words
    · rw [Function.update_of_ne same] at listed
      exact rows.words id e' listed

/-- A job writes its row. -/
theorem base_write {b : Setup} {s : State} {m : Store} (here : Base b s m) {i : Nat} {j : Job}
    (at_ : s.jobs[i]? = some j) (active : j.isDone = false) {e : StepMap.Entry} (entered : Entered j.entry e)
    {file : Str} (listed : ListOf file (Function.update m j.entry.id (some e))) (st : Stage) :
    Base b { s with file := file, jobs := s.jobs.set i { j with stage := st } }
      (Function.update m j.entry.id (some e)) := by
  obtain ⟨within,place⟩ := List.getElem?_eq_some_iff.mp at_
  have inside : j ∈ s.jobs := List.mem_of_getElem? at_
  have listedEntry : j.entry ∈ entries s.jobs := List.mem_map_of_mem inside
  obtain ⟨member,unskipped⟩ := here.steps _ listedEntry
  have same := entries_set at_ st
  have low : ∀ bound : Nat, (∀ x ∈ entries s.jobs, x.id ≤ bound) → (∀ id, Executed m id → id ≤ bound) →
      ∀ id, Executed (Function.update m j.entry.id (some e)) id → id ≤ bound := by
    intro bound ofJobs ofRows id executed
    rcases executed_update executed with ⟨rfl,_⟩ | before
    · exact_mod_cast ofJobs _ listedEntry
    · exact ofRows id before
  have marked : Marked b b.skips (Function.update m j.entry.id (some e)) := fun x step mark =>
    update_known (here.marked (.inl (List.ne_nil_of_mem inside)) x step mark)
  refine ⟨listed,entries_update here.rows member entered.name (entered.skipped.trans unskipped.symm) entered.words,
    ?_,?_,?_,?_,fun _ => marked,?_⟩
  · simpa only [same] using here.steps
  · intro j' member' begun
    rcases List.mem_or_eq_of_mem_set member' with before | rfl
    · exact update_known (here.known j' before begun)
    · simp
  · simpa only [same] using here.sorted
  · simp only [same]
    intro x last id executed
    rcases executed_update executed with ⟨rfl,_⟩ | before
    · obtain ⟨first,split⟩ := List.getLast?_eq_some_iff.mp last
      have sorted := here.sorted
      rw [split] at listedEntry sorted
      rcases List.mem_append.mp listedEntry with earlier | final
      · exact_mod_cast (List.pairwise_append.mp sorted).2.2 _ earlier x (by simp)
      · rw [List.mem_singleton.mp final]
    · exact here.top x last id before
  · have phase := here.here
    cases now : s.phase with
    | marking rest =>
      rw [now] at phase
      rw [phase.1] at inside
      cases inside
    | ended => trivial
    | looping l =>
      rw [now] at phase
      obtain ⟨_,⟨before,split,ofRows,ofJobs⟩,loop⟩ := phase
      refine ⟨marked,⟨before,split,?_,by simpa only [same] using ofJobs⟩,loop.safe,?_,?_,?_⟩
      · intro id executed
        exact_mod_cast low (before.length+1) ofJobs (by exact_mod_cast ofRows) id executed
      · intro j' member' p background undone
        rcases List.mem_or_eq_of_mem_set member' with before | rfl
        · exact loop.background j' before p background undone
        · exact loop.background j inside p background active
      · intro k j' at' foreground undone
        rw [List.length_set]
        by_cases same : i = k
        · subst same
          rw [List.getElem?_set_self within] at at'
          cases at'
          exact loop.foreground i j at_ foreground active
        · rw [List.getElem?_set_ne same] at at'
          exact loop.foreground k j' at' foreground undone
      · intro stop
        obtain ⟨idle,x,hook,last⟩ := loop.stopped stop
        refine ⟨idle,x,hook,?_⟩
        rw [List.getLast?_eq_getElem?] at last ⊢
        rw [List.length_set]
        by_cases same : i = s.jobs.length-1
        · subst same
          rw [at_] at last
          cases last
          cases active
        · rwa [List.getElem?_set_ne same]

/-! ## The loop -/

section
variable {b : Setup} {jobs : List Job} {l l' : Scheduler.State} {a : Scheduler.Action}

/-- A step in the foreground ends with the code of its job. -/
theorem ready_finish {code : Nat} (end_ : ready jobs (.finish code) = true) :
    ∃ e hook, jobs.getLast? = some ⟨none,e,.done code hook⟩ := by
  simp only [ready] at end_
  split at end_
  · next e c hook last =>
    rw [decide_eq_true_eq] at end_
    exact ⟨e,hook,end_ ▸ last⟩
  · cases end_

/-- The first of the steps that are left is not skipped once it was read. -/
theorem pending_unskipped {skipped : Str → Bool} {list : List Entry} (safe : Safe b.ncpu skipped list l) {e : Entry}
    (pending : l.pc.pending = [e]) : skipped e.name = false := by
  obtain ⟨consumed,_,order⟩ := safe.order
  have member : e ∈ consumed.filter fun e => !skipped e.name := by
    rw [← order,pending]
    simp
  simpa using (List.mem_filter.mp member).2

/-- A step that is started is a new execution. -/
theorem launched_start {e : Entry}
    (starts : (∃ pid, a = .forked pid ∧ l.pc = .fork e) ∨ a = .begin ∧ l.pc = .starting e) :
    ∃ pid, launched l a = [⟨pid,e,.begun⟩] := by
  rcases starts with ⟨pid,rfl,fork⟩ | ⟨rfl,starting⟩
  · exact ⟨some pid,by simp [launched,fork]⟩
  · exact ⟨none,by simp [launched,starting]⟩

theorem launched_other (noFork : ∀ pid, a ≠ .forked pid) (noBegin : a ≠ .begin) : launched l a = [] := by
  cases a with
  | forked pid => exact absurd rfl (noFork pid)
  | begin => exact absurd rfl noBegin
  | _ => rfl

private theorem loop_start (loop : Loop b jobs l)
    (taken : Scheduler.step b.ncpu b.reboot b.skip l a = some l') {e : Entry}
    (starts : (∃ pid, a = .forked pid ∧ l.pc = .fork e) ∨ a = .begin ∧ l.pc = .starting e) :
    Loop b (jobs ++ launched l a) l' := by
  obtain ⟨list,safe⟩ := loop.safe
  have none : ∀ (i : Nat) (j : Job), jobs[i]? = some j → j.pid = none → j.isDone = true := by
    intro i j at_ foreground
    by_contra undone
    obtain ⟨_,x,sync⟩ := loop.foreground i j at_ foreground (Bool.not_eq_true _ ▸ undone)
    rw [sync] at starts
    obtain ⟨_,_,impossible⟩ | ⟨_,impossible⟩ := starts <;> cases impossible
  have safe' := Scheduler.step_safe safe taken
  rcases starts with ⟨pid,rfl,fork⟩ | ⟨rfl,starting⟩
  · simp only [Scheduler.step,fork,Option.ite_none_right_eq_some,Option.some.injEq] at taken
    obtain ⟨_,rfl⟩ := taken
    simp only [launched,fork]
    refine ⟨⟨list,safe'⟩,?_,?_,(fun impossible => by cases impossible)⟩
    · intro j member p background undone
      rcases List.mem_append.mp member with before | new
      · exact List.mem_cons_of_mem _ (loop.background j before p background undone)
      · rw [List.mem_singleton.mp new,Option.some.injEq] at background
        simp [background]
    · intro i j at_ foreground undone
      rw [List.getElem?_append] at at_
      split at at_
      · rw [none i j at_ foreground] at undone
        cases undone
      · rw [List.mem_singleton.mp (List.mem_of_getElem? at_)] at foreground
        cases foreground
  · simp only [Scheduler.step,starting,Option.some.injEq] at taken
    subst taken
    simp only [launched,starting]
    refine ⟨⟨list,safe'⟩,?_,?_,(fun impossible => by cases impossible)⟩
    · intro j member p background undone
      rcases List.mem_append.mp member with before | new
      · exact loop.background j before p background undone
      · rw [List.mem_singleton.mp new] at background
        cases background
    · intro i j at_ foreground undone
      rw [List.getElem?_append] at at_
      split at at_
      · rw [none i j at_ foreground] at undone
        cases undone
      · next beyond =>
        have last := (List.getElem?_eq_some_iff.mp at_).1
        rw [List.length_singleton] at last
        exact ⟨by simp; omega,e,rfl⟩

private theorem loop_other (loop : Loop b jobs l) (taken : Scheduler.step b.ncpu b.reboot b.skip l a = some l')
    (ready : ready jobs a = true) (noFork : ∀ pid, a ≠ .forked pid) (noBegin : a ≠ .begin) : Loop b jobs l' := by
  obtain ⟨list,safe⟩ := loop.safe
  refine ⟨⟨list,Scheduler.step_safe safe taken⟩,?_,?_,?_⟩
  · intro j member p background undone
    have runs := loop.background j member p background undone
    rcases Scheduler.step_running taken with ⟨pid,rfl,_⟩ | ⟨pid,rfl,less⟩ | same
    · exact absurd rfl (noFork pid)
    · have other : p ≠ pid := by
        rintro rfl
        have done := List.all_eq_true.mp ready j member
        simp [background,undone] at done
      rw [less]
      exact (List.mem_erase_of_ne other).mpr runs
    · rwa [same]
  · intro i j at_ foreground undone
    obtain ⟨last,x,sync⟩ := loop.foreground i j at_ foreground undone
    refine ⟨last,x,?_⟩
    rcases Scheduler.sync_step taken sync with ⟨pid,rfl⟩ | ⟨code,rfl⟩
    · rw [Scheduler.exited_pc taken,sync]
    · obtain ⟨e,hook,final⟩ := ready_finish ready
      rw [List.getLast?_eq_getElem?,← last,Nat.add_sub_cancel,at_,Option.some.injEq] at final
      subst final
      cases undone
  · intro stop
    rcases Scheduler.step_stopped taken stop (by decide) with ⟨before,pid,_,runs⟩ | ⟨rfl,x,sync⟩
    · rw [(loop.stopped before).1] at runs
      cases runs
    · obtain ⟨e,hook,final⟩ := ready_finish ready
      refine ⟨?_,e,hook,final⟩
      rcases Scheduler.step_running taken with ⟨_,impossible,_⟩ | ⟨_,impossible,_⟩ | same
      · cases impossible
      · cases impossible
      · rw [same]
        exact Scheduler.alone_idle safe (by rw [sync]; trivial)

end

/-- The loop moves on. -/
theorem base_sched {b : Setup} (plain : b.Plain) {s : State} {m : Store} (here : Base b s m) {l l' : Scheduler.State}
    (looping : s.phase = .looping l) {a : Scheduler.Action} (go : ready s.jobs a = true) {vars : Vars}
    (taken : Scheduler.step b.ncpu b.reboot (b.skipped s.file vars) l a = some l') :
    Base b { s with phase := .looping l', jobs := s.jobs ++ launched l a } m := by
  have phase := here.here
  rw [looping] at phase
  obtain ⟨marked,⟨before,split,ofRows,ofJobs⟩,loop⟩ := phase
  rw [skipped_eq plain here.file here.rows marked] at taken
  obtain ⟨list,safe⟩ := loop.safe
  rcases Scheduler.step_todo taken with ⟨e,todo,starts⟩ | ⟨e,rfl,todo,_⟩ | ⟨todo,noFork,noBegin⟩
  · obtain ⟨pid,new⟩ := @launched_start l a e starts
    have loop' := loop_start loop taken starts
    have pending : l.pc.pending = [e] := by
      rcases starts with ⟨_,_,pc⟩ | ⟨_,pc⟩ <;> rw [pc] <;> rfl
    have unskipped := pending_unskipped safe pending
    rw [todo] at split
    have place := id_place split
    have added : entries (s.jobs ++ launched l a) = entries s.jobs ++ [e] := by simp [entries,new]
    refine ⟨here.file,here.rows,?_,?_,?_,?_,fun _ => marked,marked,⟨before ++ [e],?_,?_,?_⟩,loop'⟩
    · rw [added]
      intro x member
      rcases List.mem_append.mp member with old | final
      · exact here.steps x old
      · rw [List.mem_singleton.mp final]
        exact ⟨by simp [split],unskipped⟩
    · intro j member begun
      rcases List.mem_append.mp member with old | final
      · exact here.known j old begun
      · rw [new,List.mem_singleton] at final
        subst final
        exact absurd rfl begun
    · rw [added]
      refine List.pairwise_append.mpr ⟨here.sorted,List.pairwise_singleton _ _,?_⟩
      intro x member y final
      rw [List.mem_singleton.mp final,place]
      exact ofJobs x member
    · rw [added,List.getLast?_append,List.getLast?_singleton,Option.some_or]
      rintro x ⟨⟩ id executed
      rw [place]
      exact_mod_cast ofRows id executed
    · rw [split,List.append_assoc]
      rfl
    · intro id executed
      have := ofRows id executed
      rw [List.length_append]
      omega
    · rw [added]
      intro x member
      rw [List.length_append,List.length_singleton]
      rcases List.mem_append.mp member with old | final
      · have := ofJobs x old
        omega
      · rw [List.mem_singleton.mp final,place]
        omega
  · have same : s.jobs ++ launched l .read = s.jobs := List.append_nil _
    rw [same]
    refine ⟨here.file,here.rows,here.steps,here.known,here.sorted,here.top,here.marked,marked,⟨before ++ [e],?_,?_,?_⟩,
      loop_other loop taken go nofun nofun⟩
    · rw [split,todo,List.append_assoc]
      rfl
    · intro id executed
      have := ofRows id executed
      rw [List.length_append]
      omega
    · intro x member
      have := ofJobs x member
      rw [List.length_append]
      omega
  · rw [launched_other noFork noBegin,List.append_nil]
    exact ⟨here.file,here.rows,here.steps,here.known,here.sorted,here.top,here.marked,marked,
      ⟨before,by rw [todo,split],ofRows,ofJobs⟩,loop_other loop taken go noFork noBegin⟩

/-! ## Beginning and resuming -/

theorem start_loop (b : Setup) (jobs : List Job) (list : List Entry) (done : ∀ j ∈ jobs, j.isDone = true) :
    Loop b jobs ⟨list,[],[],.loop,[]⟩ := by
  refine ⟨⟨list,Scheduler.start_safe⟩,?_,?_,nofun⟩
  · intro j member _ _ undone
    rw [done j member] at undone
    cases undone
  · intro i j at_ _ undone
    rw [done j (List.mem_of_getElem? at_)] at undone
    cases undone

/-- What is left for a loop that begins at a number. -/
theorem from_todo {b : Setup} (plain : b.Plain) {k : Int} (positive : 0 < k) {running : List Nat} {l : Scheduler.State}
    (phase : b.from (decimal k) running = .looping l) : l.todo = b.steps.drop (k.toNat-1) := by
  cases phase
  exact offset_decimal plain positive

/-- The loop begins at a step that no row and no execution is beyond. -/
theorem here_from {b : Setup} (plain : b.Plain) {m : Store} (rows : Entries b m) (marked : Marked b b.skips m)
    {jobs : List Job} (steps : ∀ x ∈ entries jobs, x ∈ b.steps) (done : ∀ j ∈ jobs, j.isDone = true) {k : Int}
    (positive : 0 < k) (ofRows : ∀ id, Executed m id → id ≤ k) (ofJobs : ∀ x ∈ entries jobs, (x.id : Int) ≤ k) :
    Here b m jobs (b.from (decimal k) []) := by
  refine ⟨marked,⟨b.steps.take (k.toNat-1),?_,?_,?_⟩,start_loop b jobs _ done⟩
  · rw [offset_decimal plain positive]
    exact (List.take_append_drop _ _).symm
  · intro id executed
    have low := ofRows id executed
    obtain ⟨e,listed,_⟩ := executed
    obtain ⟨x,member,rfl,_⟩ := rows.listed id e listed
    have bounds := id_bounds member
    rw [List.length_take]
    omega
  · intro x member
    have low := ofJobs x member
    have bounds := id_bounds (steps x member)
    rw [List.length_take]
    omega

theorem here_mark {b : Setup} (plain : b.Plain) {m : Store} (rows : Entries b m) {before rest : List (Arg × Arg)}
    (split : b.skips = before ++ rest) (marked : Marked b before m) (ofRows : ∀ id, Executed m id → id ≤ 1) :
    Here b m [] (b.mark rest) := by
  unfold Setup.mark
  split_ifs with last
  · rw [last,List.append_nil] at split
    exact here_from plain rows (split ▸ marked) (by simp [entries]) (by simp) (by decide) ofRows (by simp [entries])
  · exact ⟨rfl,⟨before,split,marked⟩,ofRows⟩

/-- With no executions yet, only the rows and the phase count. -/
theorem base_idle {b : Setup} {file : Str} {phase : Phase} {m : Store} (listed : ListOf file m) (rows : Entries b m)
    (marked : (∃ id, Executed m id) → Marked b b.skips m) (here : Here b m [] phase) : Base b ⟨file,phase,[]⟩ m :=
  ⟨listed,rows,by simp [entries],by simp,.nil,by simp [entries],fun some =>
    marked (some.resolve_left fun none => none rfl),here⟩

theorem base_start {b : Setup} (plain : b.Plain) : Base b ⟨[],b.mark b.skips,[]⟩ fun _ => none := by
  have empty : ∀ id, ¬ Executed (fun _ => none) id := by
    rintro id ⟨_,impossible,_⟩
    cases impossible
  have rows : Entries b fun _ => none := ⟨nofun,nofun⟩
  refine base_idle StepMap.listOf_nil rows ?_ ((@here_mark _ plain _ rows []) rfl ?_ ?_)
  · rintro ⟨id,executed⟩
    exact absurd executed (empty id)
  · intro _ _ impossible
    cases impossible
  · intro id executed
    exact absurd executed (empty id)

/-! ## Writing -/

theorem plain_name {b : Setup} (plain : b.Plain) {x : Entry} (member : x ∈ b.steps) :
    (toArg x.name).str = x.name ∧ Word (toArg x.name).str ∧ (toArg x.name).str ≠ [] := by
  have same := toArg_word (plain.words x member)
  refine ⟨same,?_,?_⟩
  · rw [same]
    exact plain.words x member
  · rw [same]
    exact plain.named x member

theorem exit_toInt (exit hook : UInt8) : (Int64.ofNat (exitCode exit hook)).toInt = exitCode exit hook := by
  have bound : exitCode exit hook < 256 := by
    have := exit.toNat_lt
    unfold exitCode
    split_ifs <;> omega
  exact Int64.toInt_ofNat_of_lt (by omega)

theorem recorded_words {b : Setup} {m : Store} (rows : Entries b m) {r : Record} (plain : r.Plain) {id : Int}
    {e : StepMap.Entry} (recorded : Recorded r.args (m id) e) :
    Word e.log ∧ Word e.user := by
  refine ⟨?_,by rw [recorded.user]; exact plain.user⟩
  rcases recorded.log with word | ⟨old,listed,same⟩
  · exact word
  · rw [same]
    exact (rows.words id old listed).1

/-- A mark is written. -/
theorem base_mark {b : Setup} (plain : b.Plain) {s s' : State} {m : Store} (here : Base b s m) {stamp : Stamp}
    (words : stamp.Plain) (taken : step b s (.mark stamp) = some s') :
    ∃ x e file rest, s' = ⟨file,b.mark rest,[]⟩ ∧ b.skip x.name = true ∧ StepRecord.Entry.skipped e = true ∧
      (e.exit = 0 ∧ e.duration = 0) ∧ x ∈ b.steps ∧ Base b s' (Function.update m x.id (some e)) := by
  obtain ⟨file,phase,jobs⟩ := s
  have now := here.here
  cases phase with
  | looping l => cases taken
  | ended => cases taken
  | marking rest =>
    cases rest with
    | nil => cases taken
    | cons p rest =>
      obtain ⟨rfl,⟨before,split,marked⟩,ofRows⟩ := now
      obtain ⟨x,member,rfl⟩ := plain.skips p (by simp [split])
      obtain ⟨name,word,named⟩ := plain_name plain member
      have record : (markRecord (decimalArg x.id) (toArg x.name) stamp).Plain := by
        refine ⟨word,named,?_,words.user,words.owned⟩
        intro c impossible
        cases impossible
      obtain ⟨low,high⟩ := id_bounds member
      obtain ⟨e,recorded,duration,code,listed⟩ :=
        stepWrite_record b.q here.file rfl low (Int.le_trans high plain.short) record nofun
      have skipped : StepRecord.Entry.skipped e = true := recorded_skipped recorded
      have skip : b.skip x.name = true :=
        List.any_eq_true.mpr ⟨(decimalArg x.id,toArg x.name),by simp [split],by simp⟩
      have older : ∀ id, Executed (Function.update m x.id (some e)) id → Executed m id := by
        intro id executed
        rcases executed_update executed with ⟨_,unskipped⟩ | before
        · rw [skipped] at unskipped
          cases unskipped
        · exact before
      have rows := entries_update here.rows member (recorded.name.trans name) (skipped.trans skip.symm)
        (recorded_words here.rows record recorded)
      simp only [step,code,↓reduceIte,Option.some.injEq] at taken
      subst taken
      refine ⟨x,e,_,rest,rfl,skip,skipped,⟨recorded_exit recorded,duration⟩,member,
        base_idle listed rows ?_ ((@here_mark _ plain _ rows (before ++ [_])) (by
        rw [split,List.append_assoc]; rfl) ?_ fun id executed => ofRows id (older id executed))⟩
      · rintro ⟨id,executed⟩ y step mark
        exact update_known (here.marked (.inr ⟨id,older id executed⟩) y step mark)
      · intro y step mark
        rcases List.mem_append.mp mark with earlier | final
        · exact update_known (marked y step earlier)
        · have same : decimal y.id = decimal x.id := congrArg (fun p => p.1.str) (List.mem_singleton.mp final)
          rw [Decimal.decimal_injective same]
          simp

/-- A job writes that it has begun. -/
theorem base_record {b : Setup} (plain : b.Plain) {s s' : State} {m : Store} (here : Base b s m) {i : Nat}
    {stamp : Stamp} (words : stamp.Plain) (taken : step b s (.record i stamp) = some s') :
    ∃ j e file, s.jobs[i]? = some j ∧ j.stage = .begun ∧ Entered j.entry e ∧ e.exit = -1 ∧
      s' = ⟨file,s.phase,s.jobs.set i { j with stage := .recorded }⟩ ∧
        Base b s' (Function.update m j.entry.id (some e)) := by
  simp only [step] at taken
  cases at_ : s.jobs[i]? with
  | none => simp [at_] at taken
  | some j =>
    simp only [at_,Option.ite_none_right_eq_some,Option.some.injEq] at taken
    obtain ⟨stage,rfl⟩ := taken
    obtain ⟨member,unskipped⟩ := here.steps _ (List.mem_map_of_mem (List.mem_of_getElem? at_))
    obtain ⟨name,word,named⟩ := plain_name plain member
    have record : (startRecord j stamp).Plain := by
      refine ⟨word,named,?_,words.user,words.owned⟩
      simp only [startRecord]
      split_ifs
      · intro c impossible
        cases impossible
      · exact words.log
    obtain ⟨low,high⟩ := id_bounds member
    obtain ⟨e,recorded,_,_,listed⟩ :=
      stepWrite_record b.q here.file rfl low (Int.le_trans high plain.short) record nofun
    have entered : Entered j.entry e :=
      ⟨recorded.name.trans name,recorded_skipped recorded,recorded_words here.rows record recorded⟩
    have active : j.isDone = false := by simp [Job.isDone,stage]
    exact ⟨j,e,_,rfl,stage,entered,recorded_exit recorded,rfl,base_write here at_ active entered listed _⟩

/-- A job writes how it ended. -/
theorem base_complete {b : Setup} (plain : b.Plain) {s s' : State} {m : Store} (here : Base b s m) {i : Nat}
    {exit hook : UInt8} {stamp : Stamp} (words : stamp.Plain)
    (taken : step b s (.complete i exit hook stamp) = some s') :
    ∃ j e file, s.jobs[i]? = some j ∧ j.stage = .recorded ∧ Entered j.entry e ∧
      e.exit = (if j.isEnd then 0 else Int64.ofNat (exitCode exit hook)) ∧ e.duration = stamp.duration ∧
      s' = ⟨file,s.phase,s.jobs.set i { j with stage := b.finished j exit hook }⟩ ∧
      Base b s' (Function.update m j.entry.id (some e)) := by
  simp only [step] at taken
  cases at_ : s.jobs[i]? with
  | none => simp [at_] at taken
  | some j =>
    simp only [at_,Option.ite_none_right_eq_some,Option.some.injEq] at taken
    obtain ⟨stage,rfl⟩ := taken
    have inside := List.mem_of_getElem? at_
    obtain ⟨member,unskipped⟩ := here.steps _ (List.mem_map_of_mem inside)
    obtain ⟨name,word,named⟩ := plain_name plain member
    have record : (finishRecord j exit hook stamp).Plain := by
      refine ⟨word,named,?_,words.user,words.owned⟩
      simp only [finishRecord]
      split_ifs
      · intro c impossible
        cases impossible
      · exact words.log
    obtain ⟨low,high⟩ := id_bounds member
    have known := here.known j inside (by rw [stage]; decide)
    obtain ⟨e,recorded,duration,_,listed⟩ :=
      stepWrite_record b.q here.file rfl low (Int.le_trans high plain.short) record fun _ => known
    have entered : Entered j.entry e :=
      ⟨recorded.name.trans name,recorded_skipped recorded,recorded_words here.rows record recorded⟩
    have active : j.isDone = false := by simp [Job.isDone,stage]
    exact ⟨j,e,_,rfl,stage,entered,recorded_exit recorded,duration,rfl,base_write here at_ active entered listed _⟩

/-! ## The other steps -/

/-- The loop goes on at the last step that was executed, or after it. -/
theorem next_bounds {b : Setup} {m : Store} (rows : Entries b m) {id : Int} {e : StepMap.Entry} (last : Last m id e) :
    0 < id ∧ id ≤ StepRecord.Entry.next id e ∧ StepRecord.Entry.next id e ≤ id+1 := by
  obtain ⟨x,member,rfl,_⟩ := rows.listed id e last.here
  have := id_bounds member
  unfold StepRecord.Entry.next
  split_ifs <;> omega

theorem last_above {m : Store} {id id' : Int} {e : StepMap.Entry} (last : Last m id e)
    (executed : Executed m id') :
    id' ≤ id := by
  obtain ⟨e',listed,unskipped⟩ := executed
  exact last.above id' e' listed unskipped

/-- A step that was recorded was executed. -/
theorem known_executed {b : Setup} {s : State} {m : Store} (here : Base b s m) {j : Job} (member : j ∈ s.jobs)
    (begun : j.stage ≠ .begun) : Executed m j.entry.id := by
  obtain ⟨step,unskipped⟩ := here.steps _ (List.mem_map_of_mem member)
  cases listed : m j.entry.id with
  | none => exact absurd listed (here.known j member begun)
  | some e =>
    obtain ⟨y,step',number,_,same⟩ := here.rows.listed _ e listed
    have := same_step step step' (by omega)
    subst this
    exact ⟨e,listed,same.trans unskipped⟩

/-- Where the loop has stopped with 125, all executions are done. -/
theorem stopped_done {b : Setup} {jobs : List Job} {l : Scheduler.State} (loop : Loop b jobs l)
    (stop : l.pc = .stopped 125) :
    ∀ j ∈ jobs, j.isDone = true := by
  intro j member
  by_contra undone
  rw [Bool.not_eq_true] at undone
  cases pid : j.pid with
  | some p =>
    have runs := loop.background j member p pid undone
    rw [(loop.stopped stop).1] at runs
    cases runs
  | none =>
    obtain ⟨i,within,rfl⟩ := List.getElem_of_mem member
    obtain ⟨_,e,sync⟩ := loop.foreground i _ (List.getElem?_eq_getElem within) pid undone
    rw [stop] at sync
    cases sync

theorem base_hook {b : Setup} {s s' : State} {m : Store} (here : Base b s m) {code : UInt8}
    (taken : step b s (.hook code) = some s') :
    ∃ l c e d, s.phase = .looping l ∧ l.pc = .stopped c ∧ c ≠ 125 ∧ s.jobs.getLast? = some ⟨none,e,.done d none⟩ ∧
      s' = ⟨s.file,s.phase,s.jobs.set (s.jobs.length-1) ⟨none,e,.done d (some code.toNat)⟩⟩ ∧ Base b s' m := by
  obtain ⟨file,phase,jobs⟩ := s
  simp only [step] at taken
  split at taken
  case h_2 => cases taken
  next remaining queue running c started e d last =>
  simp only [Option.ite_none_right_eq_some,Option.some.injEq] at taken
  obtain ⟨other,rfl⟩ := taken
  have at_ : jobs[jobs.length-1]? = some ⟨none,e,.done d none⟩ := by rwa [← List.getLast?_eq_getElem?]
  have same := @entries_set jobs _ _ at_ (.done d (some code.toNat))
  dsimp only at same
  refine ⟨_,c,e,d,rfl,rfl,other,last,rfl,here.file,here.rows,?_,?_,?_,?_,?_,?_⟩
  · simpa only [same] using here.steps
  · intro j member begun
    rcases List.mem_or_eq_of_mem_set member with before | rfl
    · exact here.known j before begun
    · exact here.known ⟨none,e,.done d none⟩ (List.mem_of_getElem? at_) nofun
  · simpa only [same] using here.sorted
  · simpa only [same] using here.top
  · intro some
    refine here.marked (some.imp (fun nonempty empty => nonempty ?_) id)
    subst empty
    rfl
  · obtain ⟨marked,⟨before,split,ofRows,ofJobs⟩,loop⟩ := here.here
    refine ⟨marked,⟨before,split,ofRows,by simpa only [same] using ofJobs⟩,loop.safe,?_,?_,?_⟩
    · intro j member p background undone
      rcases List.mem_or_eq_of_mem_set member with before | rfl
      · exact loop.background j before p background undone
      · cases background
    · intro i j at' foreground undone
      rw [List.length_set]
      by_cases last : jobs.length-1 = i
      · subst last
        rw [List.getElem?_set_self (List.getElem?_eq_some_iff.mp at_).1] at at'
        cases at'
        cases undone
      · rw [List.getElem?_set_ne last] at at'
        exact loop.foreground i j at' foreground undone
    · rintro ⟨⟩
      exact absurd rfl other

theorem base_retry {b : Setup} (plain : b.Plain) {s s' : State} {m : Store} (here : Base b s m) {vars : Vars}
    (taken : step b s (.retry vars) = some s') :
    ∃ l, s.phase = .looping l ∧ l.pc = .stopped 125 ∧ Base b s' m ∧
      ((∃ id e, Last m id e ∧ s' = ⟨s.file,b.from (decimal (StepRecord.Entry.next id e)) [],s.jobs⟩) ∨
        s' = ⟨s.file,.ended,s.jobs⟩ ∧ stepNext b.sh s.file vars = none) := by
  obtain ⟨file,phase,jobs⟩ := s
  cases phase with
  | marking _ => cases taken
  | ended => cases taken
  | looping l =>
    simp only [step,Option.ite_none_right_eq_some] at taken
    obtain ⟨stop,taken⟩ := taken
    refine ⟨l,rfl,stop,?_⟩
    have idle := here.here.2.2.stopped stop
    cases printed : stepNext b.sh file vars with
    | none =>
      simp only [printed,Option.some.injEq] at taken
      subst taken
      exact ⟨⟨here.file,here.rows,here.steps,here.known,here.sorted,here.top,here.marked,trivial⟩,.inr ⟨rfl,rfl⟩⟩
    | some n =>
      simp only [printed,Option.some.injEq] at taken
      subst taken
      obtain ⟨id,e,last,rfl⟩ := stepNext_some here.file (entries_wordy plain here.rows) b.sh vars printed
      obtain ⟨positive,low,high⟩ := next_bounds here.rows last
      rw [idle.1]
      refine ⟨⟨here.file,here.rows,here.steps,here.known,here.sorted,here.top,here.marked,?_⟩,.inl ⟨id,e,last,rfl⟩⟩
      have done := stopped_done here.here.2.2 stop
      refine here_from plain here.rows here.here.1 (fun x member => (here.steps x member).1) done (by omega) ?_ ?_
      · intro id' executed
        exact Int.le_trans (last_above last executed) low
      · intro x member
        obtain ⟨j,inside,rfl⟩ := List.mem_map.mp member
        have begun : j.stage ≠ .begun := by
          intro stage
          have := done j inside
          simp [Job.isDone,stage] at this
        exact Int.le_trans (last_above last (known_executed here inside begun)) low

theorem base_leave {b : Setup} {s s' : State} {m : Store} (here : Base b s m) (taken : step b s .leave = some s') :
    Base b s' m ∧ s' = ⟨s.file,.ended,s.jobs⟩ := by
  simp only [step] at taken
  split at taken
  · simp only [Option.ite_none_right_eq_some,Option.some.injEq] at taken
    obtain ⟨_,rfl⟩ := taken
    exact ⟨⟨here.file,here.rows,here.steps,here.known,here.sorted,here.top,here.marked,trivial⟩,rfl⟩
  · cases taken

theorem base_cut {b : Setup} {s : State} {m : Store} (here : Base b s m) : Base b ⟨s.file,.ended,[]⟩ m :=
  base_idle here.file here.rows (fun some => here.marked (.inr some)) trivial

theorem base_resume {b : Setup} (plain : b.Plain) {s s' : State} {m : Store} (here : Base b s m) {vars : Vars}
    (taken : step b s (.resume vars) = some s') :
    ∃ id e, Last m id e ∧ Base b s' m ∧
      ((∃ rest, s' = ⟨s.file,.marking rest,[]⟩) ∨ s' =
        ⟨s.file,b.from (decimal (StepRecord.Entry.next id e)) [],[]⟩) := by
  obtain ⟨file,phase,jobs⟩ := s
  cases phase with
  | marking _ => cases taken
  | looping _ => cases taken
  | ended =>
    simp only [step,Option.ite_none_right_eq_some,Option.map_eq_some_iff] at taken
    obtain ⟨_,n,printed,rfl⟩ := taken
    obtain ⟨id,e,last,rfl⟩ := stepNext_some here.file (entries_wordy plain here.rows) b.sh vars printed
    obtain ⟨positive,low,high⟩ := next_bounds here.rows last
    have ofRows : ∀ id', Executed m id' → id' ≤ StepRecord.Entry.next id e := fun id' executed =>
      Int.le_trans (last_above last executed) low
    have marked := here.marked (.inr ⟨id,e,last.here,last.executed⟩)
    refine ⟨id,e,last,?_⟩
    split_ifs with first
    · have one := (testEq_decimal first).symm
      have phase := (@here_mark _ plain _ here.rows []) rfl (by intro _ _ impossible; cases impossible)
        (one ▸ ofRows)
      refine ⟨base_idle here.file here.rows (fun _ => marked) phase,?_⟩
      unfold Setup.mark
      split_ifs
      · rw [← one]
        exact .inr rfl
      · exact .inl ⟨_,rfl⟩
    · have phase : Here b m [] (b.from (decimal (StepRecord.Entry.next id e)) []) :=
        here_from plain here.rows marked (by simp [entries]) (by simp) (by omega) ofRows (by simp [entries])
      exact ⟨base_idle here.file here.rows (fun _ => marked) phase,.inr rfl⟩

end Robsd.Building
