import Robsd.Steps

/-!
The reading and writing actions of `robsd-step` (robsd-step.c). The content of
the step file goes in and comes out; who may run at the same time is the matter
of the lock.
-/
namespace Robsd.StepCommand
open Robsd.Strings
open Robsd.Decimal (strtonum)
open Robsd.Steps
open Robsd.Sorting (Qsort)

/-- Why `robsd-step` fails; it exits one in any case. -/
inductive Failure where
  | usage
  | id (str : Str) (reason : Decimal.Error)
  | exclusive
  | nameNotFound (name : Str)
  | idNotFound (id : Int)
  | interpolation (lno : Nat) (e : Interpolate.Error)
  | steps (e : Steps.Error)

/-- The lines logged for a failure, each with the line number it starts with. -/
def Failure.text : Failure → List (Nat × String)
  | .usage => [(0,"usage: robsd-step -R -f path [-i id] [-n name]"),
      (0,"       robsd-step -W -f path -i id -- key=val ..."),(0,"       robsd-step -L -m mode")]
  | .id str reason => [(0,"id " ++ String.ofList str ++ " " ++ reason.text)]
  | .exclusive => [(0,"-i and -n are mutually exclusive")]
  | .nameNotFound name => [(0,"step with name '" ++ String.ofList name ++ "' not found")]
  | .idNotFound n => [(0,"step with id " ++ toString n ++ " not found")]
  | .interpolation lno e => [(lno,e.text)]
  | .steps e => e.text

/-- `INT_MAX`. -/
def intMax : Int := 2147483647

/-- `parse_id`. -/
def parseId (str : Str) : Except Failure Int :=
  match strtonum str (-intMax) intMax with
  | .ok id => .ok id
  | .error reason => .error (.id str reason)

/-! ## Reading -/

/-- What `getopt` returns for `steps_read`. -/
inductive ReadOption where
  | i (arg : Arg)
  | n (arg : Arg)
  | unknown

/-- The option loop of `steps_read`: the name and the number asked for. -/
def readOptions : List ReadOption → Option Str → Int → Except Failure (Option Str × Int)
  | [],name,id => .ok (name,id)
  | .i arg :: opts,name,_ => (parseId arg.str).bind fun id => readOptions opts name id
  | .n arg :: opts,_,id => readOptions opts (some arg.str) id
  | .unknown :: _,_,_ => .error .usage

/-- The step read: by its name, by its position from one, or from the end by a
    negative position. -/
def stepsGet (steps : List Step) (name : Option Str) (id : Int) : Except Failure Step :=
  match name with
  | some name =>
    match stepsFindByName steps name with
    | some st => .ok st
    | none => .error (.nameNotFound name)
  | none =>
    if 0 < id then (steps[(id-1).toNat]?).elim (.error (.idNotFound id)) .ok
    else if id < 0 ∧ -id ≤ steps.length then
      (steps[(steps.length+id).toNat]?).elim (.error (.idNotFound id)) .ok
    else .error (.idNotFound id)

/-- `steps_read` on the parsed steps: what is printed of the template on the
    standard input. -/
def stepsRead (steps : List Step) (opts : List ReadOption) (args : List Arg) (stdin : Str) : Except Failure Str :=
  match readOptions opts none 0 with
  | .error e => .error e
  | .ok (name,id) =>
    if args ≠ [] then .error .usage
    else if name.isSome ∧ id ≠ 0 then .error .exclusive
    else match stepsGet steps name id with
      | .error e => .error e
      | .ok st =>
        match (Interpolate.interpolateFile (Interpolate.reading (stepInterpolateLookup st)) false stdin 0 ()).1 with
        | .error (lno,e) => .error (.interpolation lno e)
        | .ok out => .ok out

/-- `robsd-step -R` on the content of the step file. -/
def robsdStepRead (file : Str) (opts : List ReadOption) (args : List Arg) (stdin : Str) : Except Failure Str :=
  match stepsParse file with
  | .error e => .error (.steps e)
  | .ok sf => stepsRead sf.steps opts args stdin

/-- Reading succeeds with what the template says of the step asked for. -/
theorem stepsRead_ok_iff {steps : List Step} {opts : List ReadOption} {name : Option Str} {id : Int} {stdin out : Str}
    (options : readOptions opts none 0 = .ok (name,id)) (single : ¬ (name.isSome ∧ id ≠ 0)) :
    stepsRead steps opts [] stdin = .ok out ↔ ∃ st, stepsGet steps name id = .ok st ∧
      (Interpolate.interpolateFile (Interpolate.reading (stepInterpolateLookup st)) false stdin 0 ()).1 = .ok out := by
  simp only [stepsRead,options,ne_eq,not_true_eq_false,↓reduceIte]
  rw [if_neg single]
  cases stepsGet steps name id with
  | error e => simp
  | ok st =>
    cases printed : (Interpolate.interpolateFile (Interpolate.reading (stepInterpolateLookup st))
      false stdin 0 ()).1 with
    | error e => simp [printed]
    | ok text => simp [printed]

/-! ## Writing -/

/-- What `getopt` returns for `action_write`. -/
inductive WriteOption where
  | H
  | i (arg : Arg)
  | unknown

/-- The option loop of `action_write`: whether the header is asked for, and the
    number given. -/
def writeOptions : List WriteOption → Bool → Int → Except Failure (Bool × Int)
  | [],doheader,id => .ok (doheader,id)
  | .H :: opts,_,id => writeOptions opts true id
  | .i arg :: opts,doheader,_ => (parseId arg.str).bind fun id => writeOptions opts doheader id
  | .unknown :: _,_,_ => .error .usage

/-- The assignments of the arguments, in turn. -/
def setKeyvals : List Arg → Step → Except Error Step
  | [],st => .ok st
  | kv :: kvs,st => (stepSetKeyval st kv.str).bind (setKeyvals kvs)

/-- A new step with the given number. -/
def stepAlloc (id : Int) : Except Error Step :=
  stepInit.bind fun st => stepSetFieldInteger st "step".toList (Int64.ofInt id)

/-- The first step with the given number is changed in place; when there is
    none, a new one is added to the end. -/
def update (id : Int) (kvs : List Arg) : List Step → Except Error (List Step)
  | [] => (stepAlloc id).bind fun st => (setKeyvals kvs st).map ([·])
  | st :: steps =>
    if !stepFieldIsEmpty (st.fields .step) && st.id = id then (setKeyvals kvs st).map (· :: steps)
    else (update id kvs steps).map (st :: ·)

/-- What a successful `action_write` does: print the header, or replace the
    content of the file. -/
inductive Effect where
  | header
  | rewrite (bytes : Str)

def actionWrite (q : Qsort Step.id) (steps : List Step) (opts : List WriteOption) (kvs : List Arg) :
    Except Failure Effect := do
  let (doheader,id) ← writeOptions opts false 0
  if !doheader && (kvs.isEmpty || id = 0) then throw .usage
  if doheader then return .header
  match update id kvs steps with
  | .error e => throw (.steps e)
  | .ok steps =>
    match stepsWrite q steps with
    | .error e => throw (.steps e)
    | .ok bytes => return .rewrite bytes

/-- `robsd-step -W` on the content of the step file: its exit code, and the
    content afterwards. -/
def robsdStepWrite (q : Qsort Step.id) (opts : List WriteOption) (kvs : List Arg) (file : Str) : Nat × Str :=
  match stepsParse file with
  | .error _ => (1,file)
  | .ok sf =>
    match actionWrite q sf.steps opts kvs with
    | .error _ => (1,file)
    | .ok .header => (0,file)
    | .ok (.rewrite bytes) => (0,bytes)

/-- A write to a number succeeds exactly with the bytes of the updated steps. -/
theorem robsdStepWrite_ok {q : Qsort Step.id} {arg : Arg} {id : Int} {kvs : List Arg} {file : Str} {sf : StepFile}
    (parsed : stepsParse file = .ok sf) (identified : parseId arg.str = .ok id) (out : Str) :
    robsdStepWrite q [.i arg] kvs file = (0,out) ↔
      kvs ≠ [] ∧ id ≠ 0 ∧ ∃ steps, update id kvs sf.steps = .ok steps ∧ stepsWrite q steps = .ok out := by
  have options : writeOptions [.i arg] false 0 = .ok (false,id) := by simp [writeOptions,identified,Except.bind]
  simp only [robsdStepWrite,parsed,actionWrite,options,bind,Except.bind]
  by_cases usage : kvs = [] ∨ id = 0
  · have stop : (!false && (kvs.isEmpty || decide (id = 0))) = true := by
      rcases usage with empty | zero
      · simp [empty]
      · simp [zero]
    rw [if_pos stop]
    constructor
    · intro impossible
      cases impossible
    · rintro ⟨nonempty,nonzero,_⟩
      exact absurd usage (by simp [nonempty,nonzero])
  · rw [not_or] at usage
    have go : ¬ (!false && (kvs.isEmpty || decide (id = 0))) = true := by simp [usage]
    rw [if_neg go]
    simp only [ne_eq,usage,not_false_eq_true,true_and]
    cases updated : update id kvs sf.steps with
    | error e => simp [throw,throwThe,MonadExceptOf.throw]
    | ok steps =>
      cases written : stepsWrite q steps with
      | error e => simp [throw,throwThe,MonadExceptOf.throw,written]
      | ok bytes => simp [pure,Except.pure,written]

/-- A failing write leaves the file as it was. -/
theorem robsdStepWrite_failed {q : Qsort Step.id} {opts : List WriteOption} {kvs : List Arg} {file : Str}
    (failed : (robsdStepWrite q opts kvs file).1 ≠ 0) : robsdStepWrite q opts kvs file = (1,file) := by
  unfold robsdStepWrite at failed ⊢
  split
  · rfl
  · next parsed =>
    simp only [parsed] at failed
    split
    · rfl
    · next action => simp [action] at failed
    · next action => simp [action] at failed

end Robsd.StepCommand
