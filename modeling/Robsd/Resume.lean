import Robsd.Building

/-!
Resuming an interrupted build. `step_next` looks at the last row only, so a
build resumes without losing a step as long as no step is recorded as begun
while one started earlier still executes.
-/
namespace Robsd.Resume
open Robsd.Strings
open Robsd.Decimal (decimal)
open Robsd.Scheduler (Entry endName)
open Robsd.Shell
open Robsd.Sorting (insertion)
open Robsd.Steps
open Robsd.StepFormat
open Robsd.StepMap (Store ListOf)
open Robsd.StepShell
open Robsd.StepRecord
open Robsd.Execution
open Robsd.Building
open Robsd.Transition

/-! ## The property -/

/-- Whether a step has a final exit code. -/
def finished (st : Step) : Bool :=
  match st.fields .exit with
  | .integer exit => exit ≠ -1
  | _ => false

/-- Whether the file has such a row for a number. -/
def hasOutcome (file : Str) (id : Int) : Bool :=
  match stepsParse file with
  | .ok sf => sf.steps.any fun st => st.id = id && finished st
  | .error _ => false

/-- Every step before the one `step_next` prints has an outcome, unless it is skipped. -/
def Complete (b : Setup) (file : Str) : Prop :=
  ∀ vars out, stepNext b.sh file vars = some out →
    ∃ n : Int, out = decimal n ∧ ∀ x ∈ b.steps, b.skip x.name = false → (x.id : Int) < n → hasOutcome file x.id = true

/-- A step is recorded as begun when those started before it are done. -/
def inOrder (s : State) : Action → Bool
  | .record i _ => (s.jobs.take i).all Job.isDone
  | _ => true

/-- Actions in order, with plain words. -/
def Orderly (s : State) (a : Action) : Prop := a.Plain ∧ inOrder s a = true

/-! ## The invariant -/

/-- The row of a step has a final exit code. -/
def Final (m : Store) (id : Int) : Prop := ∃ e, m id = some e ∧ e.exit ≠ -1

/-- A step has an outcome, or is being executed. -/
def Covered (m : Store) (jobs : List Job) (x : Entry) : Prop :=
  Final m x.id ∨ ∃ j ∈ jobs, j.isDone = false ∧ j.entry = x

/-- Steps before any row have outcomes; those before an execution, or behind the
    loop, have outcomes or are being executed. -/
structure Resumable (b : Setup) (s : State) (m : Store) : Prop where
  settled : ∀ id, Executed m id → ∀ x ∈ b.steps, b.skip x.name = false → (x.id : Int) < id → Final m x.id
  first : ∀ j ∈ s.jobs, j.isDone = false → ∀ id, Executed m id → id ≤ j.entry.id
  earlier : ∀ j ∈ s.jobs, ∀ x ∈ b.steps, b.skip x.name = false → x.id < j.entry.id → Covered m s.jobs x
  behind : ∀ l, s.phase = .looping l → ∀ before, b.steps = before ++ l.todo → ∀ x ∈ before, b.skip x.name = false →
    Covered m s.jobs x

section
variable {b : Setup} {m : Store}

theorem final_update {k : Int} {e : StepMap.Entry} {id : Int} (final : Final m id) (other : id ≠ k ∨ e.exit ≠ -1) :
    Final (Function.update m k (some e)) id := by
  by_cases same : id = k
  · subst same
    exact ⟨e,Function.update_self _ _ _,other.resolve_left fun ne => ne rfl⟩
  · obtain ⟨e',listed,exit⟩ := final
    exact ⟨e',by rw [Function.update_of_ne same,listed],exit⟩

/-- A job that writes keeps the steps covered, its own as well. -/
theorem covered_write {jobs : List Job} {i : Nat} {j : Job} (at_ : jobs[i]? = some j) {st : Stage}
    {e : StepMap.Entry} (outcome : Job.isDone ⟨j.pid,j.entry,st⟩ = true → e.exit ≠ -1) {x : Entry}
    (own : j.entry.id = x.id → j.entry = x) (covered : Covered m jobs x) :
    Covered (Function.update m j.entry.id (some e)) (jobs.set i ⟨j.pid,j.entry,st⟩) x := by
  have within := (List.getElem?_eq_some_iff.mp at_).1
  have here (same : j.entry = x) : Covered (Function.update m j.entry.id (some e))
    (jobs.set i ⟨j.pid,j.entry,st⟩) x := by
    cases done : Job.isDone ⟨j.pid,j.entry,st⟩ with
    | true => exact .inl ⟨e,by rw [← same,Function.update_self],outcome done⟩
    | false => exact .inr ⟨_,List.mem_set within _,done,same⟩
  rcases covered with final | ⟨j',member,undone,rfl⟩
  · by_cases same : j.entry.id = x.id
    · exact here (own same)
    · exact .inl (final_update final (.inl (by omega)))
  · obtain ⟨k,inside,rfl⟩ := List.getElem_of_mem member
    by_cases same : i = k
    · subst same
      rw [List.getElem?_eq_getElem inside,Option.some.injEq] at at_
      exact here (at_ ▸ rfl)
    · refine .inr ⟨jobs[k],List.mem_of_getElem? (i := k) ?_,undone,rfl⟩
      rw [List.getElem?_set_ne same,List.getElem?_eq_getElem inside]

theorem covered_append {jobs : List Job} (new : List Job) {x : Entry} (covered : Covered m jobs x) :
    Covered m (jobs ++ new) x :=
  covered.imp_right fun ⟨j,member,rest⟩ => ⟨j,List.mem_append_left new member,rest⟩

/-- The loop resumes behind steps that have outcomes. -/
theorem next_final {s : State} (here : Resumable b s m) {id : Int} {e : StepMap.Entry} (last : Last m id e) {x : Entry}
    (member : x ∈ b.steps) (unskipped : b.skip x.name = false) (below : (x.id : Int) < StepRecord.Entry.next id e) :
    Final m x.id := by
  by_cases lower : (x.id : Int) < id
  · exact here.settled id ⟨e,last.here,last.executed⟩ x member unskipped lower
  · unfold StepRecord.Entry.next at below
    split_ifs at below with failed
    · omega
    · omega
    · have same : (x.id : Int) = id := by omega
      refine ⟨e,by rw [same,last.here],?_⟩
      intro begun
      rw [begun] at failed
      exact absurd failed (by decide)

theorem mem_behind {before todo : List Entry} {k : Nat} (split : b.steps = before ++ todo)
    (left : todo = b.steps.drop (k-1)) {x : Entry} (member : x ∈ before) :
    x.id < k := by
  have low := (mem_before split (split ▸ List.mem_append_left _ member)).mp member
  have length := congrArg List.length split
  have rest := congrArg List.length left
  have positive := id_bounds (split ▸ List.mem_append_left todo member : x ∈ b.steps)
  rw [List.length_append] at length
  rw [List.length_drop] at rest
  omega

end

/-! ## The steps -/

section
variable {b : Setup} {s s' : State} {m : Store}

/-- A job writes: that it has begun when all before it are done, or how it ended. -/
theorem resumable_write (base : Base b s m) (here : Resumable b s m) {i : Nat} {j : Job}
    (at_ : s.jobs[i]? = some j) {e : StepMap.Entry} {file : Str} {st : Stage}
    (outcome : Job.isDone ⟨j.pid,j.entry,st⟩ = true → e.exit ≠ -1)
    (order : (∀ k j', k < i → s.jobs[k]? = some j' → j'.isDone = true) ∨ Executed m j.entry.id)
    (active : j.isDone = false) :
    Resumable b ⟨file,s.phase,s.jobs.set i ⟨j.pid,j.entry,st⟩⟩ (Function.update m j.entry.id (some e)) := by
  have inside : j ∈ s.jobs := List.mem_of_getElem? at_
  have own : j.entry ∈ b.steps := (base.steps _ (List.mem_map_of_mem inside)).1
  have covered : ∀ x ∈ b.steps, Covered m s.jobs x →
      Covered (Function.update m j.entry.id (some e)) (s.jobs.set i ⟨j.pid,j.entry,st⟩) x := fun x member =>
    covered_write at_ outcome fun same => same_step own member same
  have sorted : ∀ k j', i ≤ k → s.jobs[k]? = some j' → j.entry.id ≤ j'.entry.id := by
    intro k j' above at'
    rcases Nat.eq_or_lt_of_le above with rfl | above
    · rw [at_] at at'
      cases at'
      exact Nat.le_refl _
    · obtain ⟨within,rfl⟩ := List.getElem?_eq_some_iff.mp at_
      obtain ⟨within',rfl⟩ := List.getElem?_eq_some_iff.mp at'
      exact List.pairwise_iff_getElem.mp (List.pairwise_map.mp base.sorted) i k within within' above
  refine ⟨?_,?_,?_,?_⟩
  · intro id executed x member unskipped below
    have bound : id ≤ j.entry.id := by
      rcases executed_update executed with ⟨rfl,_⟩ | before
      · exact Int.le_refl _
      · exact here.first j inside active id before
    refine final_update ?_ (.inl (by omega))
    rcases executed_update executed with ⟨rfl,_⟩ | before
    · rcases order with order | known
      · rcases here.earlier j inside x member unskipped (by omega) with final | ⟨j',member',undone,rfl⟩
        · exact final
        · obtain ⟨k,within,rfl⟩ := List.getElem_of_mem member'
          by_cases lower : k < i
          · rw [order k _ lower (List.getElem?_eq_getElem within)] at undone
            cases undone
          · have := sorted k _ (by omega) (List.getElem?_eq_getElem within)
            omega
      · exact here.settled _ known x member unskipped below
    · exact here.settled id before x member unskipped below
  · intro j' member undone id executed
    rcases executed_update executed with ⟨rfl,_⟩ | before
    · rcases List.mem_or_eq_of_mem_set member with old | rfl
      · rcases order with order | known
        · obtain ⟨k,within,rfl⟩ := List.getElem_of_mem old
          by_cases lower : k < i
          · rw [order k _ lower (List.getElem?_eq_getElem within)] at undone
            cases undone
          · exact_mod_cast sorted k _ (by omega) (List.getElem?_eq_getElem within)
        · exact here.first j' old undone _ known
      · exact Int.le_refl _
    · rcases List.mem_or_eq_of_mem_set member with old | rfl
      · exact here.first j' old undone id before
      · exact here.first j inside active id before
  · intro j' member x step unskipped below
    have listed : j'.entry ∈ entries s.jobs := entries_set at_ st ▸ List.mem_map_of_mem member
    obtain ⟨old,earlier,same⟩ := List.mem_map.mp listed
    exact covered x step (here.earlier old earlier x step unskipped (same ▸ below))
  · intro l phase before split x member unskipped
    exact covered x (split ▸ List.mem_append_left _ member) (here.behind l phase before split x member unskipped)

/-- The loop moves on. -/
theorem resumable_sched (plain : b.Plain) (base : Base b s m) (here : Resumable b s m) {l l' : Scheduler.State}
    (looping : s.phase = .looping l) {a : Scheduler.Action} {vars : Vars}
    (taken : Scheduler.step b.ncpu b.reboot (b.skipped s.file vars) l a = some l') :
    Resumable b ⟨s.file,.looping l',s.jobs ++ launched l a⟩ m := by
  have now := base.here
  rw [looping] at now
  obtain ⟨marked,⟨before,split,ofRows,ofJobs⟩,loop⟩ := now
  rw [skipped_eq plain base.file base.rows marked] at taken
  have behind := here.behind l looping before split
  have kept : launched l a = [] → ∀ before', b.steps = before' ++ l'.todo →
    (∀ x ∈ before', b.skip x.name = false → x ∈ before) →
      Resumable b ⟨s.file,.looping l',s.jobs ++ launched l a⟩ m := by
    intro none before' split' sub
    rw [none,List.append_nil]
    refine ⟨here.settled,here.first,here.earlier,?_⟩
    rintro _ ⟨⟩ before'' split'' x member unskipped
    rw [List.append_cancel_right (split'.symm.trans split'')] at sub
    exact behind x (sub x member unskipped) unskipped
  rcases Scheduler.step_todo taken with ⟨e,todo,starts⟩ | ⟨e,rfl,todo,skip⟩ | ⟨todo,noFork,noBegin⟩
  · obtain ⟨pid,new⟩ := launched_start starts
    rw [todo] at split
    have place := id_place split
    have member : e ∈ b.steps := by simp [split]
    rw [new]
    refine ⟨here.settled,?_,?_,?_⟩
    · intro j inside undone id executed
      rcases List.mem_append.mp inside with old | final
      · exact here.first j old undone id executed
      · rw [List.mem_singleton.mp final]
        have := ofRows id executed
        dsimp only
        omega
    · intro j inside x step unskipped below
      rcases List.mem_append.mp inside with old | final
      · exact covered_append _ (here.earlier j old x step unskipped below)
      · rw [List.mem_singleton.mp final] at below
        exact covered_append _ (behind x ((mem_before split step).mpr (by dsimp only at below; omega)) unskipped)
    · rintro _ ⟨⟩ before' split' x inside unskipped
      have same : before' = before ++ [e] := by
        rw [split,show before ++ e :: l'.todo = (before ++ [e]) ++ l'.todo from by simp] at split'
        exact (List.append_cancel_right split').symm
      rw [same] at inside
      rcases List.mem_append.mp inside with old | final
      · exact covered_append _ (behind x old unskipped)
      · rw [List.mem_singleton.mp final]
        exact .inr ⟨⟨pid,e,.begun⟩,by simp,rfl,rfl⟩
  · apply kept rfl (before ++ [e]) (by rw [split,todo,List.append_assoc]; rfl)
    intro x inside unskipped
    rcases List.mem_append.mp inside with old | final
    · exact old
    · rw [List.mem_singleton.mp final,skip] at unskipped
      cases unskipped
  · exact kept (launched_other noFork noBegin) before (by rw [todo,split]) fun _ inside _ => inside

/-- Without executions, rows and loop decide. -/
theorem resumable_idle {file : Str} {phase : Phase}
    (settled : ∀ id, Executed m id → ∀ x ∈ b.steps, b.skip x.name = false → (x.id : Int) < id → Final m x.id)
    (behind : ∀ l, phase = .looping l → ∀ before, b.steps = before ++ l.todo →
      ∀ x ∈ before, b.skip x.name = false → Final m x.id) :
    Resumable b ⟨file,phase,[]⟩ m :=
  ⟨settled,by simp,by simp,fun l looping before split x member unskipped =>
    .inl (behind l looping before split x member unskipped)⟩

theorem mark_behind (plain : b.Plain) {rest : List (Arg × Arg)} {l : Scheduler.State} (phase : b.mark rest = .looping l)
    {before : List Entry} (split : b.steps = before ++ l.todo) {x : Entry} : x ∉ before := by
  intro member
  unfold Setup.mark at phase
  split_ifs at phase
  have low := mem_behind split (from_todo plain (by decide) phase) member
  have := id_bounds (split ▸ List.mem_append_left l.todo member : x ∈ b.steps)
  omega

theorem step_resumable (plain : b.Plain) {a : Action} (base : Base b s m) (here : Resumable b s m)
    (orderly : Orderly s a) (taken : step b s a = some s') :
    ∃ m', Base b s' m' ∧ Resumable b s' m' := by
  obtain ⟨words,order⟩ := orderly
  cases a with
  | mark stamp =>
    obtain ⟨x,e,file,rest,rfl,skip,skipped,_,member,base'⟩ := base_mark plain base words taken
    refine ⟨_,base',resumable_idle ?_ ?_⟩
    · intro id executed y step unskipped below
      have other : (y.id : Int) ≠ x.id := by
        intro same
        rw [same_step step member (by omega),skip] at unskipped
        cases unskipped
      rcases executed_update executed with ⟨_,impossible⟩ | before
      · rw [skipped] at impossible
        cases impossible
      · exact final_update (here.settled id before y step unskipped below) (.inl other)
    · intro l phase before split y inside _
      exact absurd inside (mark_behind plain phase split)
  | sched vars a =>
    obtain ⟨file,phase,jobs⟩ := s
    cases phase with
    | marking _ => cases taken
    | ended => cases taken
    | looping l =>
      simp only [step,Option.ite_none_right_eq_some,Option.map_eq_some_iff] at taken
      obtain ⟨go,l',taken,rfl⟩ := taken
      exact ⟨m,base_sched plain base rfl go taken,resumable_sched plain base here rfl taken⟩
  | record i stamp =>
    obtain ⟨j,e,file,at_,stage,_,_,rfl,base'⟩ := base_record plain base words taken
    have before : ∀ k j, k < i → s.jobs[k]? = some j → j.isDone = true := fun k j lower at' =>
      List.all_eq_true.mp order j (List.mem_of_getElem? (i := k) (by rw [List.getElem?_take_of_lt lower,at']))
    exact ⟨_,base',resumable_write base here at_ (fun impossible => by cases impossible) (.inl before)
      (by simp [Job.isDone,stage])⟩
  | complete i exit hook stamp =>
    obtain ⟨j,e,file,at_,stage,_,code,_,rfl,base'⟩ := base_complete plain base words taken
    have known := known_executed base (List.mem_of_getElem? at_) (by rw [stage]; decide)
    refine ⟨_,base',resumable_write base here at_ ?_ (.inr known) (by simp [Job.isDone,stage])⟩
    intro _ minus
    rw [code] at minus
    split_ifs at minus
    · exact absurd minus (by decide)
    have positive := exit_toInt exit hook
    rw [minus,show (-1 : Int64).toInt = -1 from rfl] at positive
    omega
  | hook code =>
    obtain ⟨l,c,e,d,looping,_,_,last,rfl,base'⟩ := base_hook base taken
    have at_ : s.jobs[s.jobs.length-1]? = some ⟨none,e,.done d none⟩ := by rwa [← List.getLast?_eq_getElem?]
    have undone : ∀ j ∈ s.jobs.set (s.jobs.length-1) ⟨none,e,.done d (some code.toNat)⟩,
      j.isDone = false → j ∈ s.jobs := by
      intro j member undone
      rcases List.mem_or_eq_of_mem_set member with old | rfl
      · exact old
      · cases undone
    have covered : ∀ x, Covered m s.jobs x → Covered m
      (s.jobs.set (s.jobs.length-1) ⟨none,e,.done d (some code.toNat)⟩) x := by
      rintro x (final | ⟨j,member,active,same⟩)
      · exact .inl final
      · obtain ⟨k,within,rfl⟩ := List.getElem_of_mem member
        refine .inr ⟨s.jobs[k],List.mem_of_getElem? (i := k) ?_,active,same⟩
        rw [List.getElem?_set_ne ?_,List.getElem?_eq_getElem within]
        rintro rfl
        rw [List.getElem?_eq_getElem within,Option.some.injEq] at at_
        rw [at_] at active
        cases active
    refine ⟨m,base',here.settled,fun j member active => here.first j (undone j member active) active,?_,?_⟩
    · intro j member x step unskipped below
      have listed : j.entry ∈ entries s.jobs := entries_set at_ (.done d (some code.toNat)) ▸ List.mem_map_of_mem member
      obtain ⟨old,earlier,same⟩ := List.mem_map.mp listed
      exact covered x (here.earlier old earlier x step unskipped (same ▸ below))
    · intro l phase before split x member unskipped
      exact covered x (here.behind l phase before split x member unskipped)
  | retry vars =>
    obtain ⟨l,looping,stop,base',⟨id,e,last,rfl⟩ | ⟨rfl,_⟩⟩ := base_retry plain base taken
    · obtain ⟨positive,low,_⟩ := next_bounds base.rows last
      refine ⟨m,base',here.settled,here.first,here.earlier,fun l phase before split x member unskipped => .inl ?_⟩
      have step : x ∈ b.steps := split ▸ List.mem_append_left _ member
      have below := mem_behind split (from_todo plain (by omega) phase) member
      exact next_final here last step unskipped (by omega)
    · exact ⟨m,base',here.settled,here.first,here.earlier,(fun _ impossible => by cases impossible)⟩
  | leave =>
    obtain ⟨base',rfl⟩ := base_leave base taken
    exact ⟨m,base',here.settled,here.first,here.earlier,(fun _ impossible => by cases impossible)⟩
  | cut =>
    cases taken
    exact ⟨m,base_cut base,resumable_idle here.settled (fun _ impossible => by cases impossible)⟩
  | resume vars =>
    obtain ⟨id,e,last,base',⟨rest,rfl⟩ | rfl⟩ := base_resume plain base taken
    · exact ⟨m,base',resumable_idle here.settled (fun _ impossible => by cases impossible)⟩
    · obtain ⟨positive,low,_⟩ := next_bounds base.rows last
      refine ⟨m,base',resumable_idle here.settled ?_⟩
      intro l phase before split x member unskipped
      have step : x ∈ b.steps := split ▸ List.mem_append_left _ member
      have below := mem_behind split (from_todo plain (by omega) phase) member
      exact next_final here last step unskipped (by omega)

end

theorem final_outcome {file : Str} {m : Store} (here : ListOf file m) {id : Int} (final : Final m id) :
    hasOutcome file id = true := by
  obtain ⟨sf,rows,parsed,shape,represents⟩ := here
  obtain ⟨e,listed,exit⟩ := final
  obtain ⟨r,member,rfl,rfl⟩ := (represents.entries id e).mp listed
  simp only [hasOutcome,parsed,shape]
  refine List.any_eq_true.mpr ⟨r.toStep,List.mem_map_of_mem member,?_⟩
  have final : finished r.toStep = true := decide_eq_true exit
  rw [final,Bool.and_true]
  exact decide_eq_true rfl

theorem resumable_start {b : Setup} (plain : b.Plain) : Resumable b ⟨[],b.mark b.skips,[]⟩ fun _ => none := by
  have empty : ∀ id, ¬ Executed (fun _ => none) id := by
    rintro id ⟨_,impossible,_⟩
    cases impossible
  apply resumable_idle (fun id executed => absurd executed (empty id))
  intro l phase before split x member _
  exact absurd member (mark_behind plain phase split)

/-- A build in which every step is recorded as begun only when those started before
    it are done resumes, from every point at which it may be cut off, without
    losing a step. -/
theorem resume_complete {b : Setup} (plain : b.Plain) {s : State} (reached : (build b).Reaches Orderly s) :
    Complete b s.file := by
  have start : ∀ s, (build b).start s → ∃ m, Base b s m ∧ Resumable b s m := by
    rintro _ rfl
    exact ⟨_,base_start plain,resumable_start plain⟩
  obtain ⟨m,base,here⟩ := invariant (I := fun s => ∃ m, Base b s m ∧ Resumable b s m) start
    (fun s a s' ⟨m,base,here⟩ orderly taken => step_resumable plain base here orderly taken) reached
  intro vars out printed
  obtain ⟨id,e,last,rfl⟩ := stepNext_some base.file (entries_wordy plain base.rows) b.sh vars printed
  refine ⟨_,rfl,?_⟩
  intro x member unskipped below
  exact final_outcome base.file (next_final here last member unskipped below)

/-! ## Two jobs -/

def parallelSteps : List Entry := [⟨1,"a".toList,true⟩,⟨2,"b".toList,true⟩,⟨3,endName,false⟩]

def parallel : Setup := plainSetup 2 parallelSteps [] (by decide)

theorem parallel_plain : parallel.Plain := ⟨by decide,by decide,nofun,by decide⟩

/-- Two steps are started. -/
def bothStarted : List Action :=
  [.sched noVars .read,.sched noVars (.forked 10),.sched noVars (.check true),.sched noVars .read,
    .sched noVars (.forked 11)]

/-- The first step ends before the second is recorded, and the build is cut off. -/
def orderlyRun : List Action := bothStarted ++ [.record 0 stamp,.complete 0 0 0 stamp,.record 1 stamp,.cut]

def orderlyFile : Str := stepsHeader ++ "1,a,0,1,0,log,root,1,0\n2,b,-1,-1,0,log,root,1,0\n".toList

theorem resume_complete_sample : Complete parallel orderlyFile := by
  have ran : (((build parallel).runIf (fun s a => decide a.Plain && inOrder s a)
    ⟨[],parallel.mark parallel.skips,[]⟩ orderlyRun).map
      State.file) = some orderlyFile := by decide +kernel
  obtain ⟨s,ran,file⟩ := Option.map_eq_some_iff.mp ran
  rw [← file]
  exact resume_complete parallel_plain (reaches_runIf (fun s a both => by simpa [Orderly] using both) (.start rfl) ran)

/-- Here both are recorded, and the second ends first. -/
def hastyRun : List Action := bothStarted ++ [.record 0 stamp,.record 1 stamp,.complete 1 0 0 stamp,.cut]

def hastyFile : Str := stepsHeader ++ "1,a,-1,-1,0,log,root,1,0\n2,b,0,1,0,log,root,1,0\n".toList

/-- The build resumes at the third step, and the first has no outcome. -/
theorem step_lost : (∃ s, (build parallel).Reachable s ∧ s.file = hastyFile) ∧ ¬ Complete parallel hastyFile := by
  refine ⟨?_,?_⟩
  · have ran : (((build parallel).run ⟨[],parallel.mark parallel.skips,[]⟩ hastyRun).map State.file) =
      some hastyFile := by
      decide +kernel
    exact reachable_map (.start rfl) ran
  · intro complete
    have printed : stepNext parallel.sh hastyFile noVars = some (decimal 3) := by decide +kernel
    obtain ⟨n,same,outcomes⟩ := complete noVars _ printed
    have outcome := outcomes ⟨1,"a".toList,true⟩ (by decide) (by decide) (by
      rw [← Decimal.decimal_injective same]
      decide)
    exact absurd outcome (by decide +kernel)

end Robsd.Resume
