import Robsd.StepCommand

/-!
`robsd-step -W` with its effects in the order of the source (robsd-step.c,
step.c): the arguments change the steps in memory one after the other, the rows
are serialized one after the other, and only then the file is opened, which
truncates it. Nothing that fails before that touches the file.
-/
namespace Robsd.StepAtomic
open Robsd.Strings
open Robsd.Steps
open Robsd.StepCommand
open Robsd.Sorting (Qsort)

/-! ## Effects -/

/-- What becomes of the calls on the step file: whether `fopen` succeeds, and how
    many bytes are stored by an `fwrite` that fails. -/
structure Io where
  fopen : Bool
  fwrite : Option Nat

/-- How `robsd-step -W` ends. -/
inductive Exit where
  | success
  | failed (e : Failure)
  | fopen
  | fwrite

/-- The exit code. -/
def Exit.code : Exit → Nat
  | .success => 0
  | _ => 1

/-- The steps in memory and the content of the step file. -/
structure Process where
  steps : List Step
  file : Str

/-- `step_set_keyval` on the step at an index. -/
def stepSetKeyvalAt (i : Nat) (kv : Arg) (p : Process) : Option Error × Process :=
  match p.steps[i]? with
  | none => (none,p)
  | some st =>
    match stepSetKeyval st kv.str with
    | .error e => (some e,p)
    | .ok st => (none,{ p with steps := p.steps.set i st })

/-- The loop over the arguments, which leaves the steps half changed when it fails. -/
def setKeyvalsAt (i : Nat) : List Arg → Process → Option Error × Process
  | [],p => (none,p)
  | kv :: kvs,p =>
    match stepSetKeyvalAt i kv p with
    | (some e,p) => (some e,p)
    | (none,p) => setKeyvalsAt i kvs p

/-- `steps_alloc`, `step_init` and the number of the new step. -/
def stepsAllocAt (id : Int) (p : Process) : Option Error × Process :=
  let i := p.steps.length
  let p := { p with steps := p.steps ++ [Step.zero] }
  match stepAlloc id with
  | .error e => (some e,p)
  | .ok st => (none,{ p with steps := p.steps.set i st })

/-- The loop of `steps_write` that fills the buffer. -/
def serializeLoop : List Step → Str → Except Error Str
  | [],bf => .ok bf
  | st :: steps,bf =>
    match stepSerialize st with
    | .error e => .error e
    | .ok row => serializeLoop steps (bf ++ row)

/-- `steps_write`. -/
def stepsWriteIo (q : Qsort Step.id) (io : Io) (p : Process) : Exit × Process :=
  let p := { p with steps := q.sort p.steps }
  match serializeLoop p.steps stepsHeader with
  | .error e => (.failed (.steps e),p)
  | .ok bf =>
    if io.fopen then
      -- Opening for writing truncates the file.
      let p := { p with file := [] }
      match io.fwrite with
      | some n => (.fwrite,{ p with file := p.file ++ bf.take n })
      | none => (.success,{ p with file := p.file ++ bf })
    else (.fopen,p)

/-- What `action_write` does once the step is there. -/
def applyKeyvals (q : Qsort Step.id) (io : Io) (i : Nat) (kvs : List Arg) (p : Process) : Exit × Process :=
  match setKeyvalsAt i kvs p with
  | (some e,p) => (.failed (.steps e),p)
  | (none,p) => stepsWriteIo q io p

def actionWriteIo (q : Qsort Step.id) (io : Io) (opts : List WriteOption) (kvs : List Arg) (p : Process) :
    Exit × Process :=
  match writeOptions opts false 0 with
  | .error e => (.failed e,p)
  | .ok (doheader,id) =>
    if !doheader && (kvs.isEmpty || id = 0) then (.failed .usage,p)
    else if doheader then (.success,p)
    else match p.steps.findIdx? fun st => !stepFieldIsEmpty (st.fields .step) && st.id = id with
      | some i => applyKeyvals q io i kvs p
      | none =>
        match stepsAllocAt id p with
        | (some e,p) => (.failed (.steps e),p)
        | (none,p) => applyKeyvals q io (p.steps.length-1) kvs p

/-- `robsd-step -W` on the content of the step file. -/
def robsdStepWriteIo (q : Qsort Step.id) (io : Io) (opts : List WriteOption) (kvs : List Arg) (file : Str) :
    Exit × Str :=
  match stepsParse file with
  | .error e => (.failed (.steps e),file)
  | .ok sf =>
    let out := actionWriteIo q io opts kvs ⟨sf.steps,file⟩
    (out.1,out.2.file)

/-! ## What touches the file -/

theorem setKeyvalsAt_file (i : Nat) (kvs : List Arg) (p : Process) : (setKeyvalsAt i kvs p).2.file = p.file := by
  induction kvs generalizing p with
  | nil => rfl
  | cons kv kvs ih =>
    have one : (stepSetKeyvalAt i kv p).2.file = p.file := by
      unfold stepSetKeyvalAt
      split
      · rfl
      · split <;> rfl
    simp only [setKeyvalsAt]
    split
    · next e p' set => rw [set] at one; exact one
    · next p' set => rw [set] at one; rw [ih,one]

theorem stepsAllocAt_file (id : Int) (p : Process) : (stepsAllocAt id p).2.file = p.file := by
  unfold stepsAllocAt
  dsimp only
  split <;> rfl

/-- Writing fails before the file is opened, or in one of the two calls. -/
theorem stepsWriteIo_failed {q : Qsort Step.id} {io : Io} {p : Process} {e : Failure}
    (failed : (stepsWriteIo q io p).1 = .failed e) :
    (stepsWriteIo q io p).2.file = p.file := by
  unfold stepsWriteIo at failed ⊢
  dsimp only at failed ⊢
  split
  · rfl
  · next bf serialized =>
    rw [serialized] at failed
    dsimp only at failed
    split_ifs at failed
    split at failed <;> cases failed

theorem applyKeyvals_failed {q : Qsort Step.id} {io : Io} {i : Nat} {kvs : List Arg} {p : Process} {e : Failure}
    (failed : (applyKeyvals q io i kvs p).1 = .failed e) : (applyKeyvals q io i kvs p).2.file = p.file := by
  have kept := setKeyvalsAt_file i kvs p
  unfold applyKeyvals at failed ⊢
  split
  · next e' p' set => rw [set] at kept; exact kept
  · next p' set =>
    rw [set] at kept failed
    rw [stepsWriteIo_failed failed,kept]

theorem actionWriteIo_failed {q : Qsort Step.id} {io : Io} {opts : List WriteOption} {kvs : List Arg}
    {p : Process} {e : Failure} (failed : (actionWriteIo q io opts kvs p).1 = .failed e) :
    (actionWriteIo q io opts kvs p).2.file = p.file := by
  unfold actionWriteIo at failed ⊢
  split
  · rfl
  · next doheader id options =>
    rw [options] at failed
    dsimp only at failed
    by_cases usage : (!doheader && (kvs.isEmpty || decide (id = 0))) = true
    · rw [if_pos usage]
    rw [if_neg usage] at failed ⊢
    by_cases header : doheader = true
    · rw [if_pos header] at failed
      cases failed
    · rw [if_neg header] at failed ⊢
      split
      · next i found =>
        rw [found] at failed
        exact applyKeyvals_failed failed
      · next absent =>
        rw [absent] at failed
        have kept := stepsAllocAt_file id p
        split
        · next e' p' allocated => rw [allocated] at kept; exact kept
        · next p' allocated =>
          simp only [allocated] at kept failed
          rw [applyKeyvals_failed failed,kept]

/-! ## The file afterwards -/

theorem serializeLoop_eq (steps : List Step) (bf : Str) :
    serializeLoop steps bf = (steps.mapM stepSerialize).map fun rows => bf ++ rows.flatten := by
  induction steps generalizing bf with
  | nil => simp [serializeLoop,pure,Except.pure,Except.map]
  | cons st steps ih =>
    rw [serializeLoop,List.mapM_cons]
    cases stepSerialize st with
    | error e => rfl
    | ok row =>
      simp only [ih]
      cases steps.mapM stepSerialize with
      | error e => rfl
      | ok rows => simp [bind,Except.bind,pure,Except.pure,Except.map]

/-- The bytes written are those of the buffer. -/
theorem stepsWriteIo_done (q : Qsort Step.id) (p : Process) :
    stepsWriteIo q ⟨true,none⟩ p = match stepsWrite q p.steps with
      | .error e => (.failed (.steps e),⟨q.sort p.steps,p.file⟩)
      | .ok bytes => (.success,⟨q.sort p.steps,bytes⟩) := by
  simp only [stepsWriteIo,serializeLoop_eq,stepsWrite,↓reduceIte,List.nil_append]
  cases (q.sort p.steps).mapM stepSerialize with
  | error e => rfl
  | ok rows => rfl

theorem setKeyvalsAt_eq {i : Nat} {steps : List Step} {st : Step} (kvs : List Arg) (file : Str)
    (at_ : steps[i]? = some st) :
    match setKeyvals kvs st with
    | .error e => (setKeyvalsAt i kvs ⟨steps,file⟩).1 = some e
    | .ok st' => setKeyvalsAt i kvs ⟨steps,file⟩ = (none,⟨steps.set i st',file⟩) := by
  have within := (List.getElem?_eq_some_iff.mp at_).1
  induction kvs generalizing steps st with
  | nil =>
    have same : steps.set i st = steps := by
      obtain ⟨_,rfl⟩ := List.getElem?_eq_some_iff.mp at_
      exact List.set_getElem_self within
    simp [setKeyvals,setKeyvalsAt,same]
  | cons kv kvs ih =>
    simp only [setKeyvals,setKeyvalsAt,stepSetKeyvalAt,at_]
    cases stepSetKeyval st kv.str with
    | error e => rfl
    | ok st' =>
      have later := (@ih _ st') (List.getElem?_set_self within) (by simpa using within)
      simp only [Except.bind]
      cases whole : setKeyvals kvs st' with
      | error e => rw [whole] at later; exact later
      | ok st'' => rw [whole] at later; simpa using later

/-- The step that is changed in place, or the one added to the end. -/
theorem update_eq (id : Int) (kvs : List Arg) (steps : List Step) :
    update id kvs steps = match steps.findIdx? fun st => !stepFieldIsEmpty (st.fields .step) && st.id = id with
      | some i => (setKeyvals kvs (steps[i]?.getD Step.zero)).map (steps.set i ·)
      | none => (stepAlloc id).bind fun st => (setKeyvals kvs st).map (steps ++ [·]) := by
  induction steps with
  | nil => simp [update]
  | cons st steps ih =>
    rw [update,List.findIdx?_cons]
    by_cases here : (!stepFieldIsEmpty (st.fields .step) && decide (st.id = id)) = true
    · simp only [here,↓reduceIte,List.getElem?_cons_zero,Option.getD_some,List.set_cons_zero]
    · simp only [here,Bool.false_eq_true,↓reduceIte,ih]
      cases steps.findIdx? fun st => !stepFieldIsEmpty (st.fields .step) && st.id = id with
      | some i =>
        simp only [Option.map_some,List.getElem?_cons_succ,List.set_cons_succ]
        cases setKeyvals kvs (steps[i]?.getD Step.zero) <;> rfl
      | none =>
        simp only [Option.map_none]
        cases stepAlloc id with
        | error e => rfl
        | ok st' =>
          simp only [Except.bind]
          cases setKeyvals kvs st' <;> rfl

theorem applyKeyvals_eq (q : Qsort Step.id) {i : Nat} {steps : List Step} {st : Step} (kvs : List Arg) (file : Str)
    (at_ : steps[i]? = some st) :
    ((applyKeyvals q ⟨true,none⟩ i kvs ⟨steps,file⟩).1.code,(applyKeyvals q ⟨true,none⟩ i kvs ⟨steps,file⟩).2.file) =
      match (setKeyvals kvs st).map (steps.set i ·) with
      | .error _ => (1,file)
      | .ok steps => match stepsWrite q steps with
        | .error _ => (1,file)
        | .ok bytes => (0,bytes) := by
  have set := setKeyvalsAt_eq kvs file at_
  have kept := setKeyvalsAt_file i kvs ⟨steps,file⟩
  unfold applyKeyvals
  cases whole : setKeyvals kvs st with
  | error e =>
    rw [whole] at set
    cases ran : setKeyvalsAt i kvs ⟨steps,file⟩ with
    | mk e' p =>
      rw [ran] at set kept
      dsimp only at set kept
      subst set
      simp [Except.map,Exit.code,kept]
  | ok st' =>
    rw [whole] at set
    dsimp only at set
    rw [set]
    simp only [stepsWriteIo_done,Except.map]
    cases stepsWrite q (steps.set i st') <;> rfl

/-- Where the file can be written, the effects amount to replacing its content. -/
theorem robsdStepWriteIo_done (q : Qsort Step.id) (opts : List WriteOption) (kvs : List Arg) (file : Str) :
    ((robsdStepWriteIo q ⟨true,none⟩ opts kvs file).1.code,(robsdStepWriteIo q ⟨true,none⟩ opts kvs file).2) =
      robsdStepWrite q opts kvs file := by
  unfold robsdStepWriteIo robsdStepWrite
  cases stepsParse file with
  | error e => rfl
  | ok sf =>
    simp only [actionWriteIo,actionWrite,bind,Except.bind]
    cases writeOptions opts false 0 with
    | error e => rfl
    | ok options =>
      obtain ⟨doheader,id⟩ := options
      dsimp only
      by_cases usage : (!doheader && (kvs.isEmpty || decide (id = 0))) = true
      · simp only [usage,↓reduceIte]
        rfl
      simp only [usage,Bool.false_eq_true,↓reduceIte]
      by_cases header : doheader = true
      · simp only [header,↓reduceIte]
        rfl
      simp only [header,Bool.false_eq_true,↓reduceIte,update_eq]
      cases found : sf.steps.findIdx? fun st => !stepFieldIsEmpty (st.fields .step) && st.id = id with
      | some i =>
        obtain ⟨within,_⟩ := List.findIdx?_eq_some_iff_getElem.mp found
        have at_ : sf.steps[i]? = some sf.steps[i] := List.getElem?_eq_getElem within
        simp only [at_,Option.getD_some]
        rw [applyKeyvals_eq q kvs file at_]
        cases (setKeyvals kvs sf.steps[i]).map (sf.steps.set i ·) with
        | error e => rfl
        | ok steps => cases written : stepsWrite q steps <;>
          simp [written,throw,throwThe,MonadExceptOf.throw,pure,Except.pure]
      | none =>
        simp only [stepsAllocAt]
        cases stepAlloc id with
        | error e => rfl
        | ok st =>
          have at_ : (sf.steps ++ [st])[sf.steps.length]? = some st := by simp
          have grown : (sf.steps ++ [Step.zero]).set sf.steps.length st = sf.steps ++ [st] := by simp
          simp only [Except.bind,grown,List.length_append,List.length_singleton,Nat.add_sub_cancel]
          rw [applyKeyvals_eq q kvs file at_]
          cases setKeyvals kvs st with
          | error e => rfl
          | ok st' =>
            simp only [Except.map,List.set_append_right _ _ (Nat.le_refl _),Nat.sub_self,List.set_cons_zero]
            cases stepsWrite q (sf.steps ++ [st']) <;>
              simp [throw,throwThe,MonadExceptOf.throw,pure,Except.pure]

/-! ## Failed writes -/

/-- Whatever the file holds and whatever is asked for: a write that fails for any
    other reason than one of the two calls leaves every byte of the file. -/
theorem failed_write_atomic {q : Qsort Step.id} {io : Io} {opts : List WriteOption} {kvs : List Arg}
    {file : Str} (nonzero : (robsdStepWriteIo q io opts kvs file).1.code ≠ 0)
    (opened : (robsdStepWriteIo q io opts kvs file).1 ≠ .fopen)
    (stored : (robsdStepWriteIo q io opts kvs file).1 ≠ .fwrite) :
    (robsdStepWriteIo q io opts kvs file).2 = file := by
  obtain ⟨e,failed⟩ : ∃ e, (robsdStepWriteIo q io opts kvs file).1 = .failed e := by
    cases exit : (robsdStepWriteIo q io opts kvs file).1 with
    | success => exact absurd (by rw [exit]; rfl) nonzero
    | failed e => exact ⟨e,rfl⟩
    | fopen => exact absurd exit opened
    | fwrite => exact absurd exit stored
  unfold robsdStepWriteIo at failed ⊢
  split
  · rfl
  · next sf parsed =>
    rw [parsed] at failed
    exact actionWriteIo_failed failed

/-- The second argument of a write to a good file is refused, after the first one
    changed the row in memory. -/
def goodFile : Str := "step,name,exit,duration,delta,log,user,time,skip\n1,a,0,1,0,,u,1,0\n".toList

def badArgs : List Arg := [⟨"exit=1".toList,by decide⟩,⟨"duration=x".toList,by decide⟩]

/-- The exit is due to the arguments or the content of the file. -/
def Exit.refused : Exit → Bool
  | .failed _ => true
  | _ => false

theorem failed_write_atomic_sample :
    (robsdStepWriteIo (Sorting.insertion Step.id) ⟨true,none⟩ [.i ⟨['1'],by decide⟩] badArgs goodFile).2 =
      goodFile := by
  have refused : (robsdStepWriteIo (Sorting.insertion Step.id) ⟨true,none⟩ [.i ⟨['1'],by decide⟩] badArgs
    goodFile).1.refused = true := by
    decide +kernel
  have other : ∀ {e : Exit}, e.refused = true → e.code ≠ 0 ∧ e ≠ .fopen ∧ e ≠ .fwrite := by
    intro e same
    cases e <;> simp_all [Exit.refused,Exit.code]
  obtain ⟨nonzero,opened,stored⟩ := other refused
  exact failed_write_atomic nonzero opened stored

end Robsd.StepAtomic
