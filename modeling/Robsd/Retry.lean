import Robsd.Building

/-!
The retry protocol: an execution is repeated because its hook exited with 125.
The loop learns about it from the return code of the job, so it needs the job to
run in the foreground, its return code to be passed on, and the step itself not
to exit with 125.
-/
namespace Robsd.Retry
open Robsd.Strings
open Robsd.Decimal (decimal)
open Robsd.Scheduler (Entry endName)
open Robsd.Shell
open Robsd.Steps
open Robsd.StepMap (Store)
open Robsd.StepShell
open Robsd.StepRecord
open Robsd.Execution
open Robsd.Building
open Robsd.Transition

/-! ## The property -/

/-- The exit code of the hook invoked for an execution. -/
def hookOf (j : Job) : Option Nat :=
  match j.stage with
  | .done _ hook => hook
  | _ => none

/-- The step of an execution is executed again. -/
def Again (jobs : List Job) (i : Nat) (j : Job) : Prop := ∃ k j', i < k ∧ jobs[k]? = some j' ∧ j'.entry.id = j.entry.id

/-- A step is executed again exactly when the hook of the execution exited with 125. -/
def Retried (jobs : List Job) : Prop := ∀ i j, jobs[i]? = some j → (Again jobs i j ↔ hookOf j = some 125)

/-- The main loop has ended. -/
def Ended (s : State) : Prop := ∃ code, s.pc = some (.stopped code) ∧ code ≠ 125

/-- Whether the return code of a job reaches the loop. -/
def heard (b : Setup) (j : Job) : Bool := j.pid.isNone && !(b.regress && b.suite j.entry.name)

/-- The hook exits with 125 only where it is heard, and so does the step only together with it. -/
def signals (b : Setup) (s : State) : Action → Bool
  | .complete i exit hook _ =>
    match s.jobs[i]? with
    | some j => j.isEnd || (if heard b j then exit.toNat ≠ 125 || hook.toNat = 125 else hook.toNat ≠ 125)
    | none => true
  | .hook code => code.toNat ≠ 125
  | _ => true

/-- Actions with plain words that signal a retry as intended. -/
def Signalled (b : Setup) (s : State) (a : Action) : Prop := a.Plain ∧ signals b s a = true

/-! ## The invariant -/

/-- The loop is between two steps, or about to start one. -/
def reading : Scheduler.Pc → Prop
  | .loop => True
  | .waiting _ => True
  | .fork _ => True
  | .barrier _ => True
  | .starting _ => True
  | _ => False

/-- The loop will execute the step again: it is the next one, or the one in the
    foreground that makes the loop stop with 125. -/
def Owed (l : Scheduler.State) (jobs : List Job) (i : Nat) (j : Job) : Prop :=
  (reading l.pc ∧ ∃ rest, l.todo = j.entry :: rest) ∨
    i+1 = jobs.length ∧ ((∃ e, l.pc = .sync e) ∨ l.pc = .stopped 125)

structure Repeats (m : Store) (jobs : List Job) (l : Scheduler.State) : Prop where
  again : ∀ i j, jobs[i]? = some j → Again jobs i j → hookOf j = some 125
  fresh : ∀ j ∈ jobs, ∀ x ∈ l.todo, j.entry.id < x.id ∨ j.entry.id = x.id ∧ hookOf j = some 125
  owed : ∀ i j, jobs[i]? = some j → hookOf j = some 125 → Again jobs i j ∨ Owed l jobs i j
  codes : ∀ j ∈ jobs, ∀ code hook, j.pid = none → j.stage = .done code hook → (code = 125 ↔ hook = some 125)
  row : ∀ j, jobs.getLast? = some j → hookOf j = some 125 → ∃ e, m j.entry.id = some e ∧ e.exit.toInt = 125

section
variable {b : Setup} {s s' : State} {m : Store} {l l' : Scheduler.State} {jobs : List Job}

theorem again_append {new : List Job} {i : Nat} {j : Job} (again : Again jobs i j) : Again (jobs ++ new) i j := by
  obtain ⟨k,j',later,at_,same⟩ := again
  exact ⟨k,j',later,by rw [List.getElem?_append_left (List.getElem?_eq_some_iff.mp at_).1,at_],same⟩

/-- The loop keeps heading for a step that is left. -/
theorem step_reading {ncpu : Nat} {reboot : Bool} {skipped : Str → Bool} {a : Scheduler.Action}
    (taken : Scheduler.step ncpu reboot skipped l a = some l') (before : reading l.pc) {e : Entry} {rest : List Entry}
    (left : l.todo = e :: rest) (same : l'.todo = l.todo) : reading l'.pc := by
  obtain ⟨remaining,queue,running,pc,started⟩ := l
  have length := congrArg List.length same
  cases a with
  | read =>
    cases pc <;> try cases taken
    cases remaining with
    | nil => cases left
    | cons x remaining =>
      simp only [Scheduler.step] at taken
      split_ifs at taken <;> cases taken
      · simp [Scheduler.State.todo,Scheduler.Pc.pending] at length
      all_goals trivial
  | waited kept =>
    cases pc <;> simp only [Scheduler.step,reduceCtorEq,Option.ite_none_right_eq_some,Option.some.injEq] at taken
    rw [← taken.2]
    trivial
  | joined =>
    cases pc <;> simp only [Scheduler.step,reduceCtorEq,Option.ite_none_right_eq_some,
      Option.some.injEq,and_false] at taken
    · rw [← taken.2]
      trivial
    · cases before
  | exited pid =>
    rw [Scheduler.exited_pc taken]
    exact before
  | forked pid =>
    cases pc <;> simp only [Scheduler.step,reduceCtorEq,Option.ite_none_right_eq_some,Option.some.injEq] at taken
    rw [← taken.2] at length
    simp [Scheduler.State.todo,Scheduler.Pc.pending] at length
  | begin =>
    cases pc <;> simp only [Scheduler.step,reduceCtorEq,Option.some.injEq] at taken
    rw [← taken] at length
    simp [Scheduler.State.todo,Scheduler.Pc.pending] at length
  | finish code | check alive =>
    cases pc <;> simp only [Scheduler.step,reduceCtorEq] at taken
    cases before

/-- Other steps of the loop leave what is owed. -/
theorem owed_other {skipped : Str → Bool} {a : Scheduler.Action}
    (taken : Scheduler.step b.ncpu b.reboot skipped l a = some l') (go : ready jobs a = true)
    (todo : l'.todo = l.todo)
    (codes : ∀ j ∈ jobs, ∀ code hook, j.pid = none → j.stage = .done code hook → (code = 125 ↔ hook = some 125))
    {i : Nat} {j : Job} (at_ : jobs[i]? = some j) (hook : hookOf j = some 125) (owed : Owed l jobs i j) :
    Owed l' jobs i j := by
  rcases owed with ⟨heading,rest,left⟩ | ⟨last,⟨e,sync⟩ | stop⟩
  · exact .inl ⟨step_reading taken heading left todo,rest,todo.trans left⟩
  · rcases Scheduler.sync_step taken sync with ⟨pid,rfl⟩ | ⟨code,rfl⟩
    · exact .inr ⟨last,.inl ⟨e,by rw [Scheduler.exited_pc taken,sync]⟩⟩
    · obtain ⟨x,h,final⟩ := ready_finish go
      rw [List.getLast?_eq_getElem?,← last,Nat.add_sub_cancel,at_,Option.some.injEq] at final
      subst final
      have code := (codes _ (List.mem_of_getElem? at_) _ _ rfl rfl).mpr hook
      subst code
      simp only [Scheduler.step,sync,show ¬ (125 : Nat) = 0 from by decide,↓reduceIte] at taken
      split_ifs at taken
      cases taken
      exact .inr ⟨last,.inr rfl⟩
  · obtain ⟨pid,rfl⟩ := Scheduler.stopped_step taken stop
    exact .inr ⟨last,.inr (by rw [Scheduler.exited_pc taken,stop])⟩

/-! ## The steps -/

theorem repeats_sched (plain : b.Plain) (base : Base b s m) (here : Repeats m s.jobs l) (looping : s.phase = .looping l)
    {a : Scheduler.Action} (go : ready s.jobs a = true) {vars : Vars}
    (taken : Scheduler.step b.ncpu b.reboot (b.skipped s.file vars) l a = some l') :
    Repeats m (s.jobs ++ launched l a) l' := by
  have now := base.here
  rw [looping] at now
  obtain ⟨marked,⟨before,split,_,_⟩,loop⟩ := now
  rw [skipped_eq plain base.file base.rows marked] at taken
  rcases Scheduler.step_todo taken with ⟨e,todo,starts⟩ | ⟨e,rfl,todo,skip⟩ | ⟨todo,noFork,noBegin⟩
  · obtain ⟨pid,new⟩ := launched_start starts
    have heading : ¬ ((∃ e, l.pc = .sync e) ∨ l.pc = .stopped 125) := by
      rintro (⟨_,sync⟩ | stop)
      · rw [sync] at starts
        obtain ⟨_,_,impossible⟩ | ⟨_,impossible⟩ := starts <;> cases impossible
      · rw [stop] at starts
        obtain ⟨_,_,impossible⟩ | ⟨_,impossible⟩ := starts <;> cases impossible
    rw [new]
    have last : ∀ i j, (s.jobs ++ [⟨pid,e,.begun⟩])[i]? = some j → s.jobs[i]? = some j ∨ i = s.jobs.length ∧
      j = ⟨pid,e,.begun⟩ := by
      intro i j at_
      rw [List.getElem?_append] at at_
      split at at_
      · exact .inl at_
      · next beyond =>
        have within := (List.getElem?_eq_some_iff.mp at_).1
        rw [List.length_singleton] at within
        exact .inr ⟨by omega,List.mem_singleton.mp (List.mem_of_getElem? at_)⟩
    refine ⟨?_,?_,?_,?_,?_⟩
    · rintro i j at_ ⟨k,j',later,at',same⟩
      rcases last k j' at' with old' | ⟨rfl,rfl⟩
      · rcases last i j at_ with old | ⟨rfl,rfl⟩
        · exact here.again i j old ⟨k,j',later,old',same⟩
        · have := (List.getElem?_eq_some_iff.mp old').1
          omega
      · rcases last i j at_ with old | ⟨rfl,_⟩
        · rcases here.fresh j (List.mem_of_getElem? old) e (by rw [todo]; simp) with less | ⟨_,hook⟩
          · simp only at same
            omega
          · exact hook
        · omega
    · intro j member x left
      rcases List.mem_append.mp member with old | final
      · exact here.fresh j old x (by rw [todo]; simp [left])
      · rw [List.mem_singleton.mp final]
        rw [todo] at split
        obtain ⟨between,rest,more⟩ := List.append_of_mem left
        have place := id_place split
        have place' := @id_place b (before ++ e :: between) rest x (by rw [split,more]; simp)
        rw [List.length_append,List.length_cons] at place'
        exact .inl (by dsimp only; omega)
    · intro i j at_ hook
      rcases last i j at_ with old | ⟨rfl,rfl⟩
      · rcases here.owed i j old hook with again | ⟨_,rest,left⟩ | ⟨_,impossible⟩
        · exact .inl (again_append again)
        · rw [todo] at left
          cases left
          exact .inl ⟨s.jobs.length,⟨pid,j.entry,.begun⟩,(List.getElem?_eq_some_iff.mp old).1,by simp,rfl⟩
        · exact absurd impossible heading
      · cases hook
    · intro j member code hook foreground stage
      rcases List.mem_append.mp member with old | final
      · exact here.codes j old code hook foreground stage
      · rw [List.mem_singleton.mp final] at stage
        cases stage
    · intro j final hook
      rw [List.getLast?_append,List.getLast?_singleton,Option.some_or,Option.some.injEq] at final
      subst final
      cases hook
  · rw [@launched_other l .read nofun nofun,List.append_nil]
    refine ⟨here.again,fun j member x left => here.fresh j member x (by rw [todo]; simp [left]),?_,here.codes,here.row⟩
    intro i j at_ hook
    rcases here.owed i j at_ hook with again | ⟨_,rest,left⟩ | ⟨_,⟨x,sync⟩ | stop⟩
    · exact .inl again
    · rw [todo] at left
      cases left
      have unskipped := (base.steps _ (List.mem_map_of_mem (List.mem_of_getElem? at_))).2
      rw [skip] at unskipped
      cases unskipped
    · obtain ⟨_,impossible⟩ | ⟨_,impossible⟩ := Scheduler.sync_step taken sync <;> cases impossible
    · obtain ⟨_,impossible⟩ := Scheduler.stopped_step taken stop
      cases impossible
  · rw [launched_other noFork noBegin,List.append_nil]
    refine ⟨here.again,fun j member x left => here.fresh j member x (todo ▸ left),?_,here.codes,here.row⟩
    intro i j at_ hook
    exact (here.owed i j at_ hook).imp_right (owed_other taken go todo here.codes at_ hook)

private theorem getElem_set {i k : Nat} {j x : Job} (at_ : (jobs.set i j)[k]? = some x) :
    k = i ∧ x = j ∨ k ≠ i ∧ jobs[k]? = some x := by
  by_cases same : i = k
  · subst same
    have within := (List.getElem?_eq_some_iff.mp at_).1
    rw [List.length_set] at within
    rw [List.getElem?_set_self within,Option.some.injEq] at at_
    exact .inl ⟨rfl,at_.symm⟩
  · rw [List.getElem?_set_ne same] at at_
    exact .inr ⟨Ne.symm same,at_⟩

/-- A job that moves on keeps the invariant when its hook says something only in the foreground. -/
theorem repeats_set {m' : Store} (here : Repeats m jobs l) {i : Nat} {j : Job} (at_ : jobs[i]? = some j)
    (silent : hookOf j = none) {st : Stage}
    (codes : ∀ code hook, j.pid = none → st = .done code hook → (code = 125 ↔ hook = some 125))
    (owed : hookOf ⟨j.pid,j.entry,st⟩ = some 125 → (i+1 = jobs.length ∧ ∃ e, l.pc = .sync e) ∧
      ∃ e, m' j.entry.id = some e ∧ e.exit.toInt = 125)
    (frame : ∀ id, id ≠ (j.entry.id : Int) → m' id = m id) : Repeats m' (jobs.set i ⟨j.pid,j.entry,st⟩) l := by
  have within := (List.getElem?_eq_some_iff.mp at_).1
  have before : ∀ (k : Nat) (x : Job), (jobs.set i ⟨j.pid,j.entry,st⟩)[k]? = some x →
    ∃ old : Job, jobs[k]? = some old ∧ old.entry = x.entry := by
    intro k x at'
    rcases getElem_set at' with ⟨rfl,rfl⟩ | ⟨_,old⟩
    · exact ⟨j,at_,rfl⟩
    · exact ⟨x,old,rfl⟩
  refine ⟨?_,?_,?_,?_,?_⟩
  · rintro k x at' ⟨k',x',later,at'',same⟩
    obtain ⟨old',listed',entry'⟩ := before k' x' at''
    rcases getElem_set at' with ⟨rfl,rfl⟩ | ⟨_,old⟩
    · have hook := here.again k j at_ ⟨k',old',later,listed',by rw [entry',same]⟩
      rw [silent] at hook
      cases hook
    · exact here.again k x old ⟨k',old',later,listed',by rw [entry',same]⟩
  · intro x member y left
    rcases List.mem_or_eq_of_mem_set member with old | rfl
    · exact here.fresh x old y left
    · rcases here.fresh j (List.mem_of_getElem? at_) y left with less | ⟨_,hook⟩
      · exact .inl less
      · rw [silent] at hook
        cases hook
  · intro k x at' hook
    rcases getElem_set at' with ⟨rfl,rfl⟩ | ⟨other,old⟩
    · obtain ⟨⟨last,sync⟩,_⟩ := owed hook
      exact .inr (.inr ⟨by rw [List.length_set,last],.inl sync⟩)
    · rcases here.owed k x old hook with ⟨k',x',later,at'',same⟩ | heading | ⟨last,pc⟩
      · by_cases own : k' = i
        · subst own
          rw [at_,Option.some.injEq] at at''
          exact .inl ⟨k',⟨j.pid,j.entry,st⟩,later,List.getElem?_set_self within,by rw [← same,← at'']⟩
        · exact .inl ⟨k',x',later,by rw [List.getElem?_set_ne (Ne.symm own),at''],same⟩
      · exact .inr (.inl heading)
      · exact .inr (.inr ⟨by rw [List.length_set,last],pc⟩)
  · intro x member code hook foreground stage
    rcases List.mem_or_eq_of_mem_set member with old | rfl
    · exact here.codes x old code hook foreground stage
    · exact codes code hook foreground stage
  · intro x last hook
    rw [List.getLast?_eq_getElem?,List.length_set] at last
    rcases getElem_set last with ⟨_,rfl⟩ | ⟨other,old⟩
    · exact (owed hook).2
    · obtain ⟨e,listed,exit⟩ := here.row x (by rwa [List.getLast?_eq_getElem?]) hook
      refine ⟨e,?_,exit⟩
      rw [frame _ ?_,listed]
      intro same
      have again : Again jobs i j := ⟨jobs.length-1,x,by omega,old,by omega⟩
      have hook := here.again i j at_ again
      rw [silent] at hook
      cases hook

/-- The loop goes on with the step whose hook exited with 125. -/
theorem repeats_retry (plain : b.Plain) (base : Base b s m) (here : Repeats m s.jobs l) (looping : s.phase = .looping l)
    (stop : l.pc = .stopped 125) {id : Int} {e : StepMap.Entry} (last : Last m id e)
    (phase : b.from (decimal (StepRecord.Entry.next id e)) [] = .looping l') : Repeats m s.jobs l' := by
  have now := base.here
  rw [looping] at now
  obtain ⟨_,x,hook,final⟩ := now.2.2.stopped stop
  have member : ⟨none,x,.done 125 hook⟩ ∈ s.jobs := List.mem_of_getLast? final
  have exits : hook = some 125 := (here.codes _ member 125 hook rfl rfl).mp rfl
  subst exits
  obtain ⟨e',listed,exit⟩ := here.row _ final rfl
  have step : x ∈ b.steps := (base.steps _ (List.mem_map_of_mem member)).1
  have executed : Executed m x.id := known_executed base member nofun
  -- The row of the step is the last one, and its exit code is not zero.
  have same : id = x.id := by
    refine Int.le_antisymm (base.top x ?_ id ⟨e,last.here,last.executed⟩) (last_above last executed)
    rw [entries,List.getLast?_map,final,Option.map_some]
  subst same
  have entry : e' = e := Option.some.inj (listed.symm.trans last.here)
  subst entry
  have next : StepRecord.Entry.next x.id e' = x.id := by
    rw [StepRecord.Entry.next,if_pos (by omega)]
  rw [next] at phase
  obtain ⟨positive,_⟩ := id_bounds step
  have todo := from_todo plain positive phase
  obtain ⟨before,rest,split⟩ := List.append_of_mem step
  have place := id_place split
  have left : l'.todo = x :: rest := by
    rw [todo,split,show (x.id : Int).toNat-1 = before.length from by omega]
    exact List.drop_left
  have heading : reading l'.pc := by
    cases phase
    trivial
  refine ⟨here.again,?_,?_,here.codes,here.row⟩
  · intro j inside y ahead
    rw [left] at ahead
    have sorted : j.entry.id ≤ x.id := by
      obtain ⟨first,shape⟩ := List.getLast?_eq_some_iff.mp final
      have order := base.sorted
      have inside := inside
      rw [shape] at inside
      simp only [entries,shape,List.map_append,List.map_cons,List.map_nil,List.pairwise_append] at order
      rcases List.mem_append.mp inside with earlier | own
      · exact order.2.2 _ (List.mem_map_of_mem earlier) x (by simp)
      · rw [List.mem_singleton.mp own]
    rcases List.mem_cons.mp ahead with rfl | later
    · rcases Nat.lt_or_eq_of_le sorted with less | same
      · exact .inl less
      · refine .inr ⟨same,?_⟩
        obtain ⟨i,within,rfl⟩ := List.getElem_of_mem inside
        rw [List.getLast?_eq_getElem?] at final
        by_cases own : i = s.jobs.length-1
        · subst own
          rw [List.getElem?_eq_getElem within,Option.some.injEq] at final
          rw [final]
          rfl
        · exact here.again i _ (List.getElem?_eq_getElem within) ⟨s.jobs.length-1,_,by omega,final,same.symm⟩
    · obtain ⟨between,after,more⟩ := List.append_of_mem later
      have place' := @id_place b (before ++ x :: between) after y (by rw [split,more]; simp)
      rw [List.length_append,List.length_cons] at place'
      exact .inl (by omega)
  · intro i j at_ hook
    rcases here.owed i j at_ hook with again | ⟨impossible,_⟩ | ⟨own,_⟩
    · exact .inl again
    · rw [stop] at impossible
      cases impossible
    · rw [List.getLast?_eq_getElem?,← own,Nat.add_sub_cancel,at_,Option.some.injEq] at final
      subst final
      exact .inr (.inl ⟨heading,rest,left⟩)

theorem repeats_idle : Repeats m [] l := ⟨by simp,by simp,by simp,by simp,by simp⟩

/-- A job that completes says in its return code what its hook said. -/
theorem repeats_complete (base : Base b s m) (here : Repeats m s.jobs l) (looping : s.phase = .looping l)
    {i : Nat} {j : Job} {exit hook : UInt8} {stamp : Stamp} (at_ : s.jobs[i]? = some j)
    (stage : j.stage = .recorded) (signal : signals b s (.complete i exit hook stamp) = true)
    {e : StepMap.Entry} (code : e.exit = if j.isEnd then 0 else Int64.ofNat (exitCode exit hook)) :
    Repeats (Function.update m j.entry.id (some e)) (s.jobs.set i ⟨j.pid,j.entry,b.finished j exit hook⟩) l := by
  have now := base.here
  rw [looping] at now
  have undone : j.isDone = false := by simp [Job.isDone,stage]
  simp only [signals,at_,Bool.or_eq_true] at signal
  refine repeats_set here at_ (by simp [hookOf,stage]) ?_ ?_ fun id other => Function.update_of_ne other _ _
  · intro c h foreground finished
    unfold Setup.finished at finished
    split_ifs at finished with final
    · cases finished
      simp
    · cases finished
      have signal := signal.resolve_left final
      simp only [Option.some.injEq,Setup.returnCode,exitCode]
      by_cases suite : (b.regress && b.suite j.entry.name) = true
      · have deaf : heard b j = false := by simp [heard,suite]
        simp only [deaf,Bool.false_eq_true,↓reduceIte,decide_eq_true_eq] at signal
        simp [suite,signal]
      · have hears : heard b j = true := by
          rw [Bool.not_eq_true] at suite
          simp [heard,foreground,suite]
        simp only [hears,↓reduceIte,Bool.or_eq_true,decide_eq_true_eq] at signal
        simp only [suite,Bool.false_eq_true,↓reduceIte]
        split_ifs with said
        · simp [said]
        · simp [said,signal.resolve_right said]
  · intro said
    unfold Setup.finished hookOf at said
    split_ifs at said with final
    have hook125 : hook.toNat = 125 := by simpa using said
    have signal := signal.resolve_left final
    have hears : heard b j = true := by
      by_contra deaf
      simp [deaf,hook125] at signal
    simp only [heard,Bool.and_eq_true,Option.isNone_iff_eq_none] at hears
    refine ⟨now.2.2.foreground i j at_ hears.1 undone,e,Function.update_self _ _ _,?_⟩
    rw [code,if_neg final,exit_toInt]
    simp [exitCode,hook125]

theorem step_repeats (plain : b.Plain) {a : Action} (base : Base b s m)
    (here : ∀ l, s.phase = .looping l → Repeats m s.jobs l) (signalled : Signalled b s a)
    (taken : step b s a = some s') :
    ∃ m', Base b s' m' ∧ ∀ l, s'.phase = .looping l → Repeats m' s'.jobs l := by
  obtain ⟨words,signal⟩ := signalled
  cases a with
  | mark stamp =>
    obtain ⟨_,_,_,_,rfl,_,_,_,_,base'⟩ := base_mark plain base words taken
    exact ⟨_,base',fun _ _ => repeats_idle⟩
  | sched vars a =>
    obtain ⟨file,phase,jobs⟩ := s
    cases phase with
    | marking _ => cases taken
    | ended => cases taken
    | looping l =>
      simp only [step,Option.ite_none_right_eq_some,Option.map_eq_some_iff] at taken
      obtain ⟨go,l',taken,rfl⟩ := taken
      refine ⟨m,base_sched plain base rfl go taken,?_⟩
      rintro _ ⟨⟩
      exact repeats_sched plain base (here l rfl) rfl go taken
  | record i stamp =>
    obtain ⟨j,e,file,at_,stage,_,_,rfl,base'⟩ := base_record plain base words taken
    exact ⟨_,base',fun l looping => repeats_set (here l looping) at_ (by simp [hookOf,stage])
      (fun _ _ _ impossible => by cases impossible) (fun impossible => by cases impossible)
      fun id other => Function.update_of_ne other _ _⟩
  | complete i exit hook stamp =>
    obtain ⟨j,e,file,at_,stage,_,code,_,rfl,base'⟩ := base_complete plain base words taken
    exact ⟨_,base',fun l looping => repeats_complete base (here l looping) looping at_ stage signal code⟩
  | hook code =>
    obtain ⟨l,c,e,d,looping,_,_,last,rfl,base'⟩ := base_hook base taken
    have at_ : s.jobs[s.jobs.length-1]? = some ⟨none,e,.done d none⟩ := by rwa [← List.getLast?_eq_getElem?]
    have other : code.toNat ≠ 125 := by simpa [signals] using signal
    refine ⟨m,base',?_⟩
    intro l' phase
    have repeats := here l' phase
    have silent := repeats.codes _ (List.mem_of_getElem? at_) d none rfl rfl
    refine repeats_set repeats at_ rfl ?_ ?_ fun _ _ => rfl
    · rintro _ _ _ ⟨⟩
      simpa [other] using silent
    · intro said
      exact absurd (Option.some.inj said) other
  | retry vars =>
    obtain ⟨l,looping,stop,base',⟨id,e,last,rfl⟩ | ⟨rfl,_⟩⟩ := base_retry plain base taken
    · exact ⟨m,base',fun l' phase => repeats_retry (s := s) plain base (here l looping) looping stop last phase⟩
    · exact ⟨m,base',(fun _ impossible => by cases impossible)⟩
  | leave =>
    obtain ⟨base',rfl⟩ := base_leave base taken
    exact ⟨m,base',(fun _ impossible => by cases impossible)⟩
  | cut =>
    cases taken
    exact ⟨m,base_cut base,(fun _ impossible => by cases impossible)⟩
  | resume vars =>
    obtain ⟨id,e,last,base',⟨rest,rfl⟩ | rfl⟩ := base_resume plain base taken
    · exact ⟨m,base',(fun _ impossible => by cases impossible)⟩
    · exact ⟨m,base',fun _ _ => repeats_idle⟩

/-- Once the main loop of an invocation has ended, exactly the executions whose hook
    exited with 125 were repeated, given that hooks and steps signal a retry only
    where the loop hears it. -/
theorem retried_iff (plain : b.Plain) (reached : (build b).Reaches (Signalled b) s) (ended : Ended s) :
    Retried s.jobs := by
  have start : ∀ s, (build b).start s → ∃ m, Base b s m ∧ ∀ l, s.phase = .looping l → Repeats m s.jobs l := by
    rintro _ rfl
    exact ⟨_,base_start plain,fun _ _ => repeats_idle⟩
  obtain ⟨m,_,here⟩ := invariant (I := fun s => ∃ m, Base b s m ∧ ∀ l, s.phase = .looping l → Repeats m s.jobs l) start
    (fun s a s' ⟨m,base,here⟩ signalled taken => step_repeats plain base here signalled taken) reached
  obtain ⟨code,pc,other⟩ := ended
  obtain ⟨l,looping,stop⟩ : ∃ l, s.phase = .looping l ∧ l.pc = .stopped code := by
    unfold State.pc at pc
    split at pc
    · next l looping => exact ⟨l,looping,Option.some.inj pc⟩
    · cases pc
  have repeats := here l looping
  intro i j at_
  refine ⟨repeats.again i j at_,?_⟩
  intro hook
  rcases repeats.owed i j at_ hook with again | ⟨impossible,_⟩ | ⟨_,⟨_,impossible⟩ | impossible⟩
  · exact again
  · rw [stop] at impossible
    cases impossible
  · rw [stop] at impossible
    cases impossible
  · rw [stop] at impossible
    cases impossible
    exact absurd rfl other

end

/-! ## Hooks that are heard, and one that is not -/

/-- One step and the end. -/
def oneStep (parallel : Bool) : Setup :=
  plainSetup 2 [⟨1,"a".toList,parallel⟩,⟨2,endName,false⟩] [] (by cases parallel <;> decide)

theorem oneStep_plain (parallel : Bool) : (oneStep parallel).Plain := by
  refine ⟨?_,?_,nofun,?_⟩ <;> cases parallel <;> decide

/-- An execution in the foreground, in the place given. -/
def foreground (i : Nat) (exit hook : UInt8) (code : Nat) : List Action :=
  [.sched noVars .read,.sched noVars .begin,.record i stamp,.complete i exit hook stamp,.sched noVars (.finish code)]

/-- Where the loop is, and the executions so far. -/
def view (s : State) : Option Scheduler.Pc × List Job := (s.pc,s.jobs)

def heardJobs : List Job :=
  [⟨none,⟨1,"a".toList,false⟩,.done 125 (some 125)⟩,⟨none,⟨1,"a".toList,false⟩,.done 0 (some 1)⟩,
    ⟨none,⟨2,endName,false⟩,.done 0 (some 0)⟩]

/-- The step fails and its hook asks for a retry, which succeeds. -/
theorem retried_iff_sample : Retried heardJobs := by
  have ran : (((build (oneStep false)).runIf (fun s a => decide a.Plain && signals (oneStep false) s a)
      ⟨[],(oneStep false).mark (oneStep false).skips,[]⟩
        (foreground 0 1 125 125 ++ [.retry noVars] ++ foreground 1 0 1 0 ++
        [.sched noVars (.check true)] ++ foreground 2 0 0 0 ++ [.hook 0])).map view) =
          some (some (.stopped 0),heardJobs) := by
    decide +kernel
  obtain ⟨s,ran,seen⟩ := Option.map_eq_some_iff.mp ran
  obtain ⟨pc,jobs⟩ := Prod.mk.inj seen
  rw [← jobs]
  exact retried_iff (oneStep_plain false)
    (reaches_runIf (fun s a both => by simpa [Signalled] using both) (.start rfl) ran) ⟨0,pc,by decide⟩

def unheardJobs : List Job := [⟨some 10,⟨1,"a".toList,true⟩,.done 125 (some 125)⟩,⟨none,⟨2,endName,false⟩,.done 0 none⟩]

def confusedJobs : List Job :=
  [⟨none,⟨1,"a".toList,false⟩,.done 125 (some 0)⟩,⟨none,⟨1,"a".toList,false⟩,.done 0 (some 0)⟩,
    ⟨none,⟨2,endName,false⟩,.done 0 none⟩]

/-- The hook of a parallel step is not heard, and a step that exits with 125 itself is repeated. -/
theorem not_retried :
    (∃ s, (build (oneStep true)).Reachable s ∧ Ended s ∧ ¬ Retried s.jobs) ∧
      ∃ s, (build (oneStep false)).Reachable s ∧ Ended s ∧ ¬ Retried s.jobs := by
  have unheard : (((build (oneStep true)).run ⟨[],(oneStep true).mark (oneStep true).skips,[]⟩
      ([.sched noVars .read,.sched noVars (.forked 10),.sched noVars (.check true),.record 0 stamp,
        .complete 0 0 125 stamp,
        .sched noVars (.exited 10),.sched noVars .read,.sched noVars .joined,.sched noVars .begin,.record 1 stamp,
        .complete 1 0 0 stamp,.sched noVars (.finish 0)])).map view) = some (some (.stopped 0),unheardJobs) := by
    decide +kernel
  have confused : (((build (oneStep false)).run ⟨[],(oneStep false).mark (oneStep false).skips,[]⟩
      (foreground 0 125 0 125 ++ [.retry noVars] ++ foreground 1 0 0 0 ++ [.sched noVars (.check true)] ++
        foreground 2 0 0 0)).map view) = some (some (.stopped 0),confusedJobs) := by
    decide +kernel
  obtain ⟨s,reached,seen⟩ := reachable_map (.start rfl) unheard
  obtain ⟨t,reached',seen'⟩ := reachable_map (.start rfl) confused
  obtain ⟨pc,jobs⟩ := Prod.mk.inj seen
  obtain ⟨pc',jobs'⟩ := Prod.mk.inj seen'
  refine ⟨⟨s,reached,⟨0,pc,by decide⟩,?_⟩,⟨t,reached',⟨0,pc',by decide⟩,?_⟩⟩
  · intro retried
    rw [jobs] at retried
    obtain ⟨k,j,later,at_,same⟩ := (retried 0 _ rfl).mpr rfl
    have only : k = 1 := by
      have := (List.getElem?_eq_some_iff.mp at_).1
      simp only [unheardJobs,List.length_cons,List.length_nil] at this
      omega
    subst only
    cases at_
    cases same
  · intro retried
    rw [jobs'] at retried
    have hook := (retried 0 _ rfl).mp ⟨1,_,by decide,rfl,rfl⟩
    exact absurd hook (by decide)

end Robsd.Retry
