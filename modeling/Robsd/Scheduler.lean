import Mathlib.Data.List.Perm.Subperm
import Mathlib.Data.List.Nodup
import Robsd.Strings
import Robsd.Transition

/-!
The loop of `robsd_exec_steps` (util.sh): the list of steps still to read, the
job queue `_jobs` and the jobs that are really running, which exit whenever they
like. `robsd-wait` returns after one of the given processes has exited and
prints those not seen to have; with `-a` it returns after all of them have.
-/
namespace Robsd.Scheduler
open Robsd.Strings
open Robsd.Transition

/-- One line of `robsd-step -L`. -/
structure Entry where
  id : Nat
  name : Str
  parallel : Bool
  deriving DecidableEq, Repr

/-- Where the loop is. -/
inductive Pc where
  | loop
  | waiting (e : Entry)
  | fork (e : Entry)
  | barrier (e : Entry)
  | starting (e : Entry)
  | sync (e : Entry)
  | after (e : Entry)
  | dying
  | stopped (code : Nat)
  deriving DecidableEq, Repr

/-- The loop with its environment. `started` lists the steps started so far. -/
structure State where
  remaining : List Entry
  jobs : List Nat
  running : List Nat
  pc : Pc
  started : List Entry
  deriving DecidableEq, Repr

/-- The steps of the loop and of its environment: `waited` is the return of
    `robsd-wait` with what it prints, `joined` that of `robsd-wait -a`. -/
inductive Action where
  | read
  | waited (kept : List Nat)
  | forked (pid : Nat)
  | exited (pid : Nat)
  | joined
  | begin
  | finish (code : Nat)
  | check (alive : Bool)
  deriving DecidableEq, Repr

def endName : Str := "end".toList
def rebootName : Str := "reboot".toList

/-- What `robsd-wait` may print: given processes without repetition, all that are
    still running among them, and not all that were given. -/
def Waited (s : State) (kept : List Nat) : Prop :=
  kept.Nodup ∧ (∀ p ∈ kept, p ∈ s.jobs) ∧ (∀ p ∈ s.jobs, p ∈ s.running → p ∈ kept) ∧ ∃ p ∈ s.jobs, p ∉ kept

instance (s : State) (kept : List Nat) : Decidable (Waited s kept) := inferInstanceAs (Decidable (_ ∧ _))

/-- One step, for a number of parallel jobs, the `reboot` setting and the test of
    `step_skip` on the row found by name. -/
def step (ncpu : Nat) (reboot : Bool) (skipped : Str → Bool) (s : State) : Action → Option State
  | .read =>
    match s.pc,s.remaining with
    | .loop,[] => some { s with pc := .stopped 0 }
    | .loop,e :: rest =>
      if skipped e.name then some { s with remaining := rest }
      else if e.parallel then
        if s.jobs.length = ncpu then some { s with remaining := rest, pc := .waiting e }
        else some { s with remaining := rest, pc := .fork e }
      else if s.jobs ≠ [] then some { s with remaining := rest, pc := .barrier e }
      else some { s with remaining := rest, pc := .starting e }
    | _,_ => none
  | .waited kept =>
    match s.pc with
    | .waiting e => if Waited s kept then some { s with jobs := kept, pc := .fork e } else none
    | _ => none
  | .forked pid =>
    match s.pc with
    | .fork e =>
      if pid ∉ s.running then
        some
          { s with jobs := s.jobs ++ [pid], running := pid :: s.running, started := s.started ++ [e], pc := .after e }
      else none
    | _ => none
  | .exited pid => if pid ∈ s.running then some { s with running := s.running.erase pid } else none
  | .joined =>
    if ∀ p ∈ s.jobs, p ∉ s.running then
      match s.pc with
      | .barrier e => some { s with jobs := [], pc := .starting e }
      | .dying => some { s with pc := .stopped 1 }
      | _ => none
    else none
  | .begin =>
    match s.pc with
    | .starting e => some { s with started := s.started ++ [e], pc := .sync e }
    | _ => none
  | .finish code =>
    match s.pc with
    | .sync e =>
      if e.name = endName then (if code = 0 then some { s with pc := .stopped 0 } else none)
      else if code = 0 then some { s with pc := .after e }
      else some { s with pc := .stopped code }
    | _ => none
  | .check alive =>
    match s.pc with
    | .after e =>
      if e.name = rebootName ∧ reboot then some { s with pc := .stopped 0 }
      else if alive then some { s with pc := .loop }
      else if s.jobs = [] then some { s with pc := .stopped 1 }
      else some { s with pc := .dying }
    | _ => none

/-- The loop on a list of steps from an offset on. -/
def scheduler (ncpu : Nat) (reboot : Bool) (skipped : Str → Bool) (steps : List Entry) (offset : Nat) :
    System State Action where
  start s := s = ⟨steps.drop (offset-1),[],[],.loop,[]⟩
  step := step ncpu reboot skipped

/-- The step that was read and is to be started next. -/
def Pc.pending : Pc → List Entry
  | .waiting e => [e]
  | .fork e => [e]
  | .barrier e => [e]
  | .starting e => [e]
  | _ => []

/-- No parallel job may run in the foreground of a step. -/
def Pc.alone : Pc → Prop
  | .starting _ => True
  | .sync _ => True
  | _ => False

/-- Whether the queue has room for one more. -/
def Pc.room : Pc → Prop
  | .fork _ => True
  | _ => False

/-- Which kind of step the loop is at. -/
def Pc.kind : Pc → Prop
  | .waiting e => e.parallel = true
  | .fork e => e.parallel = true
  | .barrier e => e.parallel = false
  | .starting e => e.parallel = false
  | .sync e => e.parallel = false
  | _ => True

/-- The invariant of the loop: running jobs are in the queue, which is shrunk
    before it grows beyond the limit and empty around a step in the foreground,
    and the steps read so far are those skipped, started, or pending. -/
structure Safe (ncpu : Nat) (skipped : Str → Bool) (list : List Entry) (s : State) : Prop where
  distinct : s.running.Nodup
  queued : ∀ p ∈ s.running, p ∈ s.jobs
  bounded : s.jobs.length ≤ ncpu
  room : s.pc.room → s.jobs.length < ncpu
  alone : s.pc.alone → s.jobs = []
  kind : s.pc.kind
  order : ∃ consumed, list = consumed ++ s.remaining ∧
    s.started ++ s.pc.pending = consumed.filter fun e => !skipped e.name

section
variable {ncpu : Nat} {reboot : Bool} {skipped : Str → Bool} {list : List Entry} {s s' : State}

theorem start_safe : Safe ncpu skipped list ⟨list,[],[],.loop,[]⟩ :=
  ⟨.nil,by simp,by simp,nofun,nofun,trivial,[],by simp,rfl⟩

/-- What is printed by `robsd-wait` is shorter than what was given. -/
theorem waited_length {kept : List Nat} (waited : Waited s kept) : kept.length < s.jobs.length := by
  obtain ⟨distinct,given,_,⟨p,member,gone⟩⟩ := waited
  have others : ∀ k ∈ kept, k ∈ s.jobs.erase p := fun k inside =>
    (List.mem_erase_of_ne (by rintro rfl; exact gone inside)).mpr (given k inside)
  have fits := (distinct.subperm others).length_le
  have shorter := List.length_erase_of_mem member
  have := List.length_pos_of_mem member
  omega

private theorem read_safe (here : Safe ncpu skipped list s) (taken : step ncpu reboot skipped s .read = some s') :
    Safe ncpu skipped list s' := by
  obtain ⟨remaining,jobs,running,pc,started⟩ := s
  obtain ⟨distinct,queued,bounded,_,_,_,consumed,split,order⟩ := here
  cases pc <;> try cases taken
  cases remaining with
  | nil =>
    cases taken
    exact ⟨distinct,queued,bounded,nofun,nofun,trivial,consumed,split,order⟩
  | cons e rest =>
    have more : list = (consumed ++ [e]) ++ rest := by simp [split]
    simp only [Pc.pending,List.append_nil] at order
    simp only [step] at taken
    split_ifs at taken with skip parallel full queue
    · cases taken
      exact ⟨distinct,queued,bounded,nofun,nofun,trivial,consumed ++ [e],more,by simp [Pc.pending,order,skip]⟩
    · cases taken
      exact ⟨distinct,queued,bounded,nofun,nofun,parallel,consumed ++ [e],more,by simp [Pc.pending,order,skip]⟩
    · cases taken
      have room : jobs.length < ncpu := Nat.lt_of_le_of_ne bounded full
      exact ⟨distinct,queued,bounded,fun _ => room,nofun,parallel,consumed ++ [e],more,by simp [Pc.pending,order,skip]⟩
    · cases taken
      exact ⟨distinct,queued,bounded,nofun,nofun,eq_false_of_ne_true parallel,consumed ++ [e],more,
        by simp [Pc.pending,order,skip]⟩
    · cases taken
      exact ⟨distinct,queued,bounded,nofun,fun _ => not_not.mp queue,eq_false_of_ne_true parallel,consumed ++ [e],more,
        by simp [Pc.pending,order,skip]⟩

private theorem waited_safe {kept : List Nat} (here : Safe ncpu skipped list s)
    (taken : step ncpu reboot skipped s (.waited kept) = some s') : Safe ncpu skipped list s' := by
  simp only [step] at taken
  split at taken
  · next e waiting =>
    split at taken
    · next waited =>
      cases taken
      have shorter := waited_length waited
      have bounded := here.bounded
      have room : kept.length < ncpu := by omega
      have kind := here.kind
      rw [waiting] at kind
      refine ⟨here.distinct,fun p runs => waited.2.2.1 p (here.queued p runs) runs,Nat.le_of_lt room,
        fun _ => room,nofun,kind,?_⟩
      simpa [waiting,Pc.pending] using here.order
    · cases taken
  · cases taken

private theorem forked_safe {pid : Nat} (here : Safe ncpu skipped list s)
    (taken : step ncpu reboot skipped s (.forked pid) = some s') : Safe ncpu skipped list s' := by
  simp only [step] at taken
  split at taken
  · next e fork =>
    split at taken
    · next fresh =>
      cases taken
      have room := here.room (by rw [fork]; trivial)
      refine ⟨List.nodup_cons.mpr ⟨fresh,here.distinct⟩,?_,?_,nofun,nofun,trivial,?_⟩
      · intro p runs
        rcases List.mem_cons.mp runs with rfl | before
        · simp
        · simp [here.queued p before]
      · simp only [List.length_append,List.length_singleton]
        omega
      · simpa [fork,Pc.pending] using here.order
    · cases taken
  · cases taken

private theorem exited_safe {pid : Nat} (here : Safe ncpu skipped list s)
    (taken : step ncpu reboot skipped s (.exited pid) = some s') : Safe ncpu skipped list s' := by
  simp only [step] at taken
  split at taken
  · cases taken
    exact ⟨here.distinct.erase pid,fun p runs => here.queued p (List.mem_of_mem_erase runs),here.bounded,here.room,
      here.alone,here.kind,here.order⟩
  · cases taken

private theorem joined_safe (here : Safe ncpu skipped list s) (taken : step ncpu reboot skipped s .joined = some s') :
    Safe ncpu skipped list s' := by
  simp only [step] at taken
  split at taken
  · next gone =>
    split at taken
    · next e barrier =>
      cases taken
      have idle : ∀ p ∈ s.running, p ∈ ([] : List Nat) := fun p runs => absurd runs (gone p (here.queued p runs))
      have kind := here.kind
      rw [barrier] at kind
      refine ⟨here.distinct,idle,by simp,nofun,fun _ => rfl,kind,?_⟩
      simpa [barrier,Pc.pending] using here.order
    · next dying =>
      cases taken
      refine ⟨here.distinct,here.queued,here.bounded,nofun,nofun,trivial,?_⟩
      simpa [dying,Pc.pending] using here.order
    · cases taken
  · cases taken

private theorem begin_safe (here : Safe ncpu skipped list s) (taken : step ncpu reboot skipped s .begin = some s') :
    Safe ncpu skipped list s' := by
  simp only [step] at taken
  split at taken
  · next e starting =>
    cases taken
    have empty := here.alone (by rw [starting]; trivial)
    have kind := here.kind
    rw [starting] at kind
    refine ⟨here.distinct,here.queued,here.bounded,nofun,fun _ => empty,kind,?_⟩
    simpa [starting,Pc.pending] using here.order
  · cases taken

/-- The end of a step in the foreground only moves the loop. -/
private theorem finish_safe {code : Nat} (here : Safe ncpu skipped list s)
    (taken : step ncpu reboot skipped s (.finish code) = some s') : Safe ncpu skipped list s' := by
  simp only [step] at taken
  split at taken
  · next e sync =>
    have order := here.order
    simp only [sync,Pc.pending] at order
    split_ifs at taken <;> cases taken <;> exact ⟨here.distinct,here.queued,here.bounded,nofun,nofun,trivial,order⟩
  · cases taken

private theorem check_safe {alive : Bool} (here : Safe ncpu skipped list s)
    (taken : step ncpu reboot skipped s (.check alive) = some s') : Safe ncpu skipped list s' := by
  simp only [step] at taken
  split at taken
  · next e after =>
    have order := here.order
    simp only [after,Pc.pending] at order
    split_ifs at taken <;> cases taken <;> exact ⟨here.distinct,here.queued,here.bounded,nofun,nofun,trivial,order⟩
  · cases taken

theorem step_safe {a : Action} (here : Safe ncpu skipped list s) (taken : step ncpu reboot skipped s a = some s') :
    Safe ncpu skipped list s' := by
  cases a with
  | read => exact read_safe here taken
  | waited kept => exact waited_safe here taken
  | forked pid => exact forked_safe here taken
  | exited pid => exact exited_safe here taken
  | joined => exact joined_safe here taken
  | begin => exact begin_safe here taken
  | finish code => exact finish_safe here taken
  | check alive => exact check_safe here taken

/-- Around a step in the foreground no job runs. -/
theorem alone_idle (here : Safe ncpu skipped list s) (alone : s.pc.alone) : s.running = [] := by
  apply List.eq_nil_iff_forall_not_mem.mpr
  intro p runs
  have queued := here.queued p runs
  rw [here.alone alone] at queued
  cases queued

/-- Running jobs are no more than the queue has entries. -/
theorem running_length (here : Safe ncpu skipped list s) : s.running.length ≤ ncpu :=
  Nat.le_trans (here.distinct.subperm here.queued).length_le here.bounded

end

/-- A step of the list is started. -/
def Starts (s s' : State) (e : Entry) : Prop := s'.started = s.started ++ [e]

/-- Only a fork starts a parallel step, and only `begin` one in the foreground. -/
theorem starts_pc {ncpu : Nat} {reboot : Bool} {skipped : Str → Bool} {s s' : State} {a : Action} {e : Entry}
    (taken : step ncpu reboot skipped s a = some s') (starts : Starts s s' e) :
    s.pc = .fork e ∨ s.pc = .starting e := by
  have other : s'.started ≠ s.started := by
    rw [starts]
    simp
  cases a with
  | forked pid =>
    simp only [step] at taken
    split at taken
    · next e' fork =>
      split at taken
      · cases taken
        have same : e' = e := by simpa [Starts] using starts
        exact .inl (same ▸ fork)
      · cases taken
    · cases taken
  | begin =>
    simp only [step] at taken
    split at taken
    · next e' starting =>
      cases taken
      have same : e' = e := by simpa [Starts] using starts
      exact .inr (same ▸ starting)
    · cases taken
  | read | waited _ | exited _ | joined | finish _ | check _ =>
    refine absurd ?_ other
    simp only [step] at taken
    repeat' split at taken
    all_goals first | (cases taken; done) | (cases taken; rfl)

/-- The steps that are left: the one that was read, and those not read yet. -/
def State.todo (s : State) : List Entry := s.pc.pending ++ s.remaining

/-- What one step does to those that are left: it starts the first of them, passes
    over it because it is skipped, or leaves them as they are. -/
theorem step_todo {ncpu : Nat} {reboot : Bool} {skipped : Str → Bool} {s s' : State} {a : Action}
    (taken : step ncpu reboot skipped s a = some s') :
    (∃ e, s.todo = e :: s'.todo ∧ ((∃ pid, a = .forked pid ∧ s.pc = .fork e) ∨ a = .begin ∧ s.pc = .starting e)) ∨
      (∃ e, a = .read ∧ s.todo = e :: s'.todo ∧ skipped e.name = true) ∨
      s'.todo = s.todo ∧ (∀ pid, a ≠ .forked pid) ∧ a ≠ .begin := by
  obtain ⟨remaining,jobs,running,pc,started⟩ := s
  cases a with
  | read =>
    cases pc <;> try cases taken
    cases remaining with
    | nil =>
      cases taken
      exact .inr (.inr ⟨rfl,nofun,nofun⟩)
    | cons e rest =>
      simp only [step] at taken
      split_ifs at taken with skip
      · cases taken
        exact .inr (.inl ⟨e,rfl,rfl,skip⟩)
      all_goals
        cases taken
        exact .inr (.inr ⟨rfl,nofun,nofun⟩)
  | waited kept =>
    cases pc <;> simp only [step,reduceCtorEq,Option.ite_none_right_eq_some,Option.some.injEq] at taken
    obtain ⟨_,rfl⟩ := taken
    exact .inr (.inr ⟨rfl,nofun,nofun⟩)
  | forked pid =>
    cases pc <;> simp only [step,reduceCtorEq,Option.ite_none_right_eq_some,Option.some.injEq] at taken
    obtain ⟨_,rfl⟩ := taken
    exact .inl ⟨_,rfl,.inl ⟨pid,rfl,rfl⟩⟩
  | exited pid =>
    simp only [step,Option.ite_none_right_eq_some,Option.some.injEq] at taken
    obtain ⟨_,rfl⟩ := taken
    exact .inr (.inr ⟨rfl,nofun,nofun⟩)
  | joined =>
    cases pc <;> simp only [step,reduceCtorEq,Option.ite_none_right_eq_some,Option.some.injEq,and_false] at taken
    all_goals
      obtain ⟨_,rfl⟩ := taken
      exact .inr (.inr ⟨rfl,nofun,nofun⟩)
  | begin =>
    cases pc <;> simp only [step,reduceCtorEq,Option.some.injEq] at taken
    subst taken
    exact .inl ⟨_,rfl,.inr ⟨rfl,rfl⟩⟩
  | finish code =>
    cases pc <;> simp only [step,reduceCtorEq] at taken
    split_ifs at taken <;> cases taken <;> exact .inr (.inr ⟨rfl,nofun,nofun⟩)
  | check alive =>
    cases pc <;> simp only [step,reduceCtorEq] at taken
    split_ifs at taken <;> cases taken <;> exact .inr (.inr ⟨rfl,nofun,nofun⟩)

/-- Jobs appear by a fork and disappear by an exit. -/
theorem step_running {ncpu : Nat} {reboot : Bool} {skipped : Str → Bool} {s s' : State} {a : Action}
    (taken : step ncpu reboot skipped s a = some s') :
    (∃ pid, a = .forked pid ∧ s'.running = pid :: s.running) ∨
      (∃ pid, a = .exited pid ∧ s'.running = s.running.erase pid) ∨ s'.running = s.running := by
  obtain ⟨remaining,jobs,running,pc,started⟩ := s
  cases a with
  | forked pid =>
    cases pc <;> simp only [step,reduceCtorEq,Option.ite_none_right_eq_some,Option.some.injEq] at taken
    obtain ⟨_,rfl⟩ := taken
    exact .inl ⟨pid,rfl,rfl⟩
  | exited pid =>
    simp only [step,Option.ite_none_right_eq_some,Option.some.injEq] at taken
    obtain ⟨_,rfl⟩ := taken
    exact .inr (.inl ⟨pid,rfl,rfl⟩)
  | read =>
    cases pc <;> try cases taken
    cases remaining with
    | nil =>
      cases taken
      exact .inr (.inr rfl)
    | cons e rest =>
      simp only [step] at taken
      split_ifs at taken <;> cases taken <;> exact .inr (.inr rfl)
  | begin | waited _ | joined | finish _ | check _ =>
    cases pc <;> simp only [step,reduceCtorEq] at taken
    all_goals
      try split_ifs at taken
      all_goals
        cases taken
        exact .inr (.inr rfl)

/-- Around a step in the foreground only jobs exit, until it ends. -/
theorem sync_step {ncpu : Nat} {reboot : Bool} {skipped : Str → Bool} {s s' : State} {a : Action} {e : Entry}
    (taken : step ncpu reboot skipped s a = some s') (before : s.pc = .sync e) :
    (∃ pid, a = .exited pid) ∨ ∃ code, a = .finish code := by
  obtain ⟨remaining,jobs,running,pc,started⟩ := s
  cases before
  cases a with
  | exited pid => exact .inl ⟨pid,rfl⟩
  | finish code => exact .inr ⟨code,rfl⟩
  | read | forked _ | begin => cases taken
  | waited _ | joined | check _ => simp [step] at taken

/-- Once the loop has stopped, only jobs exit. -/
theorem stopped_step {ncpu : Nat} {reboot : Bool} {skipped : Str → Bool} {s s' : State} {a : Action} {code : Nat}
    (taken : step ncpu reboot skipped s a = some s') (before : s.pc = .stopped code) : ∃ pid, a = .exited pid := by
  obtain ⟨remaining,jobs,running,pc,started⟩ := s
  cases before
  cases a with
  | exited pid => exact ⟨pid,rfl⟩
  | read | forked _ | begin => cases taken
  | waited _ | joined | finish _ | check _ => simp [step] at taken

theorem exited_pc {ncpu : Nat} {reboot : Bool} {skipped : Str → Bool} {s s' : State} {pid : Nat}
    (taken : step ncpu reboot skipped s (.exited pid) = some s') : s'.pc = s.pc := by
  simp only [step,Option.ite_none_right_eq_some,Option.some.injEq] at taken
  rw [← taken.2]

/-- The loop stops with another code than 0 and 1 only after a step in the foreground. -/
theorem step_stopped {ncpu : Nat} {reboot : Bool} {skipped : Str → Bool} {s s' : State} {a : Action} {code : Nat}
    (taken : step ncpu reboot skipped s a = some s') (now : s'.pc = .stopped code) (special : 1 < code) :
    (s.pc = .stopped code ∧ ∃ pid, a = .exited pid ∧ pid ∈ s.running) ∨ a = .finish code ∧ ∃ e, s.pc = .sync e := by
  obtain ⟨remaining,jobs,running,pc,started⟩ := s
  cases a with
  | finish c =>
    cases pc <;> simp only [step,reduceCtorEq] at taken
    split_ifs at taken <;> cases taken <;> cases now
    · omega
    · exact .inr ⟨rfl,_,rfl⟩
  | exited pid =>
    simp only [step,Option.ite_none_right_eq_some,Option.some.injEq] at taken
    obtain ⟨running,rfl⟩ := taken
    exact .inl ⟨now,pid,rfl,running⟩
  | read =>
    cases pc <;> try cases taken
    cases remaining with
    | nil =>
      cases taken
      cases now
      omega
    | cons e rest =>
      simp only [step] at taken
      split_ifs at taken <;> cases taken <;> cases now
  | forked _ | waited _ | joined | begin | check _ =>
    cases pc <;> simp only [step,reduceCtorEq] at taken
    all_goals
      try split_ifs at taken
      all_goals
        cases taken
        cases now
        try omega

theorem reachable_safe {ncpu : Nat} {reboot : Bool} {skipped : Str → Bool} {steps : List Entry} {offset : Nat}
    {s : State} (reached : (scheduler ncpu reboot skipped steps offset).Reachable s) :
    Safe ncpu skipped (steps.drop (offset-1)) s :=
  invariant_always (I := Safe ncpu skipped (steps.drop (offset-1))) (by rintro _ rfl; exact start_safe)
    (fun _ _ _ here taken => step_safe here taken) reached

/-- In every state the loop reaches, at most `ncpu` jobs run; a step that is not
    parallel is started, and executes, only when none does; and the steps read so
    far that are not skipped are, in the order of the list, those started once
    each and the one about to be. -/
theorem scheduler_safe (ncpu : Nat) (reboot : Bool) (skipped : Str → Bool) (steps : List Entry) (offset : Nat)
    {s : State} (reached : (scheduler ncpu reboot skipped steps offset).Reachable s) :
    s.running.length ≤ ncpu ∧
      (∀ a s' e, step ncpu reboot skipped s a = some s' → Starts s s' e → e.parallel = false → s.running = []) ∧
      (∀ e, s.pc = .sync e → s.running = []) ∧
      ∃ consumed, steps.drop (offset-1) = consumed ++ s.remaining ∧
        s.started ++ s.pc.pending = consumed.filter fun e => !skipped e.name := by
  have here := reachable_safe reached
  refine ⟨running_length here,?_,?_,here.order⟩
  · intro a s' e taken starts foreground
    rcases starts_pc taken starts with fork | starting
    · have kind := here.kind
      rw [fork] at kind
      rw [show e.parallel = true from kind] at foreground
      cases foreground
    · exact alone_idle here (by rw [starting]; trivial)
  · intro e sync
    exact alone_idle here (by rw [sync]; trivial)

/-- Two jobs share the only slot, and the last step waits for the second. -/
def sampleSteps : List Entry := [⟨1,"a".toList,true⟩,⟨2,"b".toList,true⟩,⟨3,"c".toList,true⟩,⟨4,endName,false⟩]

def sampleSkipped (name : Str) : Bool := name = "b".toList

def sampleEnd : State := ⟨[],[],[],.sync ⟨4,endName,false⟩,[⟨1,"a".toList,true⟩,⟨3,"c".toList,true⟩,⟨4,endName,false⟩]⟩

theorem scheduler_safe_sample :
    sampleEnd.running.length ≤ 1 ∧
      (∀ a s' e, step 1 false sampleSkipped sampleEnd a = some s' → Starts sampleEnd s' e → e.parallel = false →
        sampleEnd.running = []) ∧
      (∀ e, sampleEnd.pc = .sync e → sampleEnd.running = []) ∧
      ∃ consumed, sampleSteps.drop (1-1) = consumed ++ sampleEnd.remaining ∧
        sampleEnd.started ++ sampleEnd.pc.pending = consumed.filter fun e => !sampleSkipped e.name := by
  have run : (scheduler 1 false sampleSkipped sampleSteps 1).run ⟨sampleSteps,[],[],.loop,[]⟩
    [.read,.forked 10,.check true,
      .read,.read,.exited 10,.waited [],.forked 11,.check true,.read,.exited 11,.joined,.begin] = some sampleEnd :=
        by decide
  exact scheduler_safe 1 false sampleSkipped sampleSteps 1 (reachable_run (.start rfl) run)

end Robsd.Scheduler
