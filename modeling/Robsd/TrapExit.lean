import Mathlib.Data.List.Induction
import Robsd.StepRecord

/-!
The exit trap (util.sh) and the build directory. `has_steps` takes every failure
of `robsd-step -R` for an empty file, and the trap then removes the directory;
after calls of `step_write` with plain words that is right.
-/
namespace Robsd.TrapExit
open Robsd.Strings
open Robsd.Decimal (decimal)
open Robsd.Shell
open Robsd.Sorting (Qsort insertion)
open Robsd.Steps
open Robsd.StepCommand
open Robsd.StepFormat
open Robsd.StepMap (Store ListOf)
open Robsd.StepShell
open Robsd.StepRecord

/-- What the trap depends on besides the step file: whether `report` succeeds, the
    script is detached, and the mail can be sent. -/
structure Environment where
  report : Bool
  detached : Bool
  mail : Bool
  deriving DecidableEq, Repr

/-- What the trap does: invoke the hook for the end step, remove the build directory,
    and return. -/
structure Outcome where
  hook : Bool
  removed : Bool
  code : Nat
  deriving DecidableEq, Repr

/-- `step_eval -n end`. -/
def evalEnd (sh : Interpreter) (file : Str) (vars : Vars) : Bool :=
  (stepEval sh (.named ⟨"end".toList,by decide⟩) file vars).isSome

/-- `trap_exit`. -/
def trapExit (sh : Interpreter) (vars : Vars) (env : Environment) (err : Nat) (builddir file : Str) : Outcome :=
  if builddir = [] then ⟨false,false,err⟩
  else if hasSteps sh file vars && (err ≠ 0 || evalEnd sh file vars) && env.report && env.detached && !env.mail then
    -- The trap runs under set -e and ends here.
    ⟨false,false,1⟩
  else ⟨evalEnd sh file vars,!hasSteps sh file vars,err⟩

/-- Calls of `step_write` that all exit with 0, and the file they leave behind. -/
def writes (q : Qsort Step.id) (ws : List StepWrite) (file : Str) : Option Str :=
  ws.foldlM (fun file w => if (stepWrite q w file).1 = 0 then some (stepWrite q w file).2 else none) file

/-- Whether a step is marked as one to be skipped. -/
def marked (st : Step) : Bool :=
  match st.fields .skip with
  | .integer n => n.toInt = 1
  | _ => false

/-- The file records an executed step. -/
def Records (file : Str) : Prop :=
  ∃ (sf : StepFile) (st : Step), stepsParse file = .ok sf ∧ st ∈ sf.steps ∧ marked st = false

/-- The trap keeps the directory after any call that recorded an executed step, and
    removes it only where the file records none. -/
def Keeps (sh : Interpreter) (vars : Vars) (env : Environment) (err : Nat) (builddir : Str)
    (ws : List StepWrite) (file : Str) : Prop :=
  ((∃ w ∈ ws, w.skip = false) → (trapExit sh vars env err builddir file).removed = false) ∧
    ((trapExit sh vars env err builddir file).removed = true → ¬ Records file)

/-- What the last call for each step says about skipping it. -/
def lastSkip (ws : List StepWrite) (id : Int) : Option Bool :=
  ws.foldl (fun last w => if (parseId w.id.str).toOption = some id then some w.skip else last) none

/-- Calls with plain words for steps as `robsd-step -L` numbers them. -/
structure Proper (w : StepWrite) : Prop where
  plain : Plain w
  positive : ∀ id, parseId w.id.str = .ok id → 0 < id

/-! ## The file after the calls -/

/-- The map of the file, with the marks of the last calls. -/
structure Tracks (file : Str) (m : Store) (ws : List StepWrite) : Prop where
  listed : ListOf file m
  wordy : Store.Wordy m
  marks : ∀ id, (m id).map StepRecord.Entry.skipped = lastSkip ws id

theorem lastSkip_append (ws : List StepWrite) (w : StepWrite) (id : Int) :
    lastSkip (ws ++ [w]) id = if (parseId w.id.str).toOption = some id then some w.skip else lastSkip ws id := by
  simp [lastSkip]

/-- One more successful call. -/
theorem tracks_write (q : Qsort Step.id) {ws : List StepWrite} {w : StepWrite} (proper : Proper w)
    {file : Str} {m : Store} (here : Tracks file m ws) (success : (stepWrite q w file).1 = 0) :
    ∃ m', Tracks (stepWrite q w file).2 m' (ws ++ [w]) := by
  obtain ⟨id,g,e,identified,_,given,taken,listed⟩ := stepWrite_succeeds q proper.plain here.listed success
  have recorded := recorded_of_written proper.plain given taken
  have bounds := (StepReadback.parseId_bounds identified)
  have high : id ≤ intMax := by
    unfold parseId at identified
    split at identified
    · next accepted =>
      cases identified
      exact (Decimal.strtonum_bounds accepted).2
    · cases identified
  refine ⟨_,listed,⟨?_,?_⟩,?_⟩
  · intro id' e' entry
    by_cases same : id' = id
    · subst same
      rw [Function.update_self,Option.some.injEq] at entry
      subst entry
      refine ⟨recorded.name ▸ proper.plain.name,?_,recorded.user ▸ proper.plain.user⟩
      rcases recorded.log with word | ⟨old,known,same⟩
      · exact word
      · rw [same]
        exact (here.wordy.words _ old known).2.1
    · rw [Function.update_of_ne same] at entry
      exact here.wordy.words id' e' entry
  · intro id' e' entry
    by_cases same : id' = id
    · subst same
      exact ⟨proper.positive _ identified,high⟩
    · rw [Function.update_of_ne same] at entry
      exact here.wordy.positive id' e' entry
  · intro id'
    rw [lastSkip_append,identified]
    by_cases same : id' = id
    · subst same
      simp [Except.toOption,recorded_skipped recorded]
    · rw [Function.update_of_ne same,here.marks id']
      simp [Except.toOption,Ne.symm same]

theorem tracks_writes (q : Qsort Step.id) {ws : List StepWrite} (proper : ∀ w ∈ ws, Proper w) {file : Str}
    (success : writes q ws [] = some file) : ∃ m, Tracks file m ws := by
  induction ws using List.reverseRecOn generalizing file with
  | nil =>
    cases success
    exact ⟨_,StepMap.listOf_nil,⟨nofun,nofun⟩,fun _ => rfl⟩
  | append_singleton ws w ih =>
    rw [writes,List.foldlM_append] at success
    obtain ⟨file',before,last⟩ := Option.bind_eq_some_iff.mp success
    simp only [List.foldlM_cons,List.foldlM_nil] at last
    obtain ⟨file'',here,same⟩ := Option.bind_eq_some_iff.mp last
    obtain ⟨m,tracks⟩ := ih (fun w member => proper w (by simp [member])) before
    simp only [Option.ite_none_right_eq_some,Option.some.injEq] at here
    obtain ⟨zero,rfl⟩ := here
    cases same
    exact tracks_write q (proper w (by simp)) tracks zero

/-- The file records an executed step where the last call for some step did. -/
theorem records_iff {file : Str} {m : Store} {ws : List StepWrite} (here : Tracks file m ws) :
    Records file ↔ ∃ id, lastSkip ws id = some false := by
  obtain ⟨sf,rows,parsed,shape,represents⟩ := here.listed
  constructor
  · rintro ⟨sf',st,parsed',member,executed⟩
    rw [parsed] at parsed'
    cases parsed'
    rw [shape] at member
    obtain ⟨r,inside,rfl⟩ := List.mem_map.mp member
    refine ⟨r.id,?_⟩
    rw [← here.marks,(represents.entries _ _).mpr ⟨r,inside,rfl,rfl⟩]
    exact congrArg some executed
  · rintro ⟨id,last⟩
    rw [← here.marks] at last
    obtain ⟨e,listed,executed⟩ := Option.map_eq_some_iff.mp last
    obtain ⟨r,member,rfl,rfl⟩ := (represents.entries id e).mp listed
    exact ⟨sf,r.toStep,parsed,by rw [shape]; exact List.mem_map_of_mem member,executed⟩

/-- So `has_steps` tells the truth. -/
theorem hasSteps_records {sh : Interpreter} {vars : Vars} {file : Str} {m : Store} {ws : List StepWrite}
    (here : Tracks file m ws) :
    hasSteps sh file vars = true ↔ Records file := by
  rw [hasSteps_iff here.listed here.wordy sh vars,records_iff here]
  apply exists_congr
  intro id
  rw [← here.marks]
  exact Option.map_eq_some_iff.symm

theorem removed_eq {sh : Interpreter} {vars : Vars} {env : Environment} {err : Nat} {builddir file : Str}
    (built : builddir ≠ []) :
    (trapExit sh vars env err builddir file).removed = !hasSteps sh file vars := by
  unfold trapExit
  rw [if_neg built]
  split_ifs with stop
  · simp only [Bool.and_eq_true] at stop
    rw [stop.1.1.1.1]
    rfl
  · rfl

/-- After calls with plain words the trap keeps real results, provided that some step
    is left that its last call did not mark as one to be skipped. -/
theorem keeps_iff (q : Qsort Step.id) (sh : Interpreter) (vars : Vars) (env : Environment) (err : Nat) {builddir : Str}
    (built : builddir ≠ []) {ws : List StepWrite} (proper : ∀ w ∈ ws, Proper w) {file : Str}
    (success : writes q ws [] = some file) :
    Keeps sh vars env err builddir ws file ↔ ((∃ w ∈ ws, w.skip = false) → ∃ id, lastSkip ws id = some false) := by
  obtain ⟨m,here⟩ := tracks_writes q proper success
  rw [Keeps,removed_eq built,← records_iff here,← @hasSteps_records sh vars file m ws here]
  cases hasSteps sh file vars <;> simp

/-! ## Two builds -/

/-- The last write for the first step, under some name. -/
def firstDone (name : Arg) : StepWrite :=
  Record.args ⟨decimalArg 1,name,0,10,0,⟨"log".toList,by decide⟩,⟨"root".toList,by decide⟩,some 1,false⟩

def noVars : Vars := fun _ => []

def quiet : Environment := ⟨true,false,true⟩

def builddir : Str := "/home/robsd/2024-01-01.1".toList

def env : Arg := ⟨"env".toList,by decide⟩

theorem proper_env : Proper (firstDone env) := by
  refine ⟨plain_record (n := 1) rfl ⟨by decide,by decide,by decide,by decide,by decide⟩,?_⟩
  intro id identified
  have one : parseId (decimal 1) = .ok 1 := parseId_decimal (by decide) (by decide)
  have same : (1 : Int) = id := Except.ok.inj (one.symm.trans identified)
  omega

def envFile : Str := stepsHeader ++ "1,env,0,10,0,log,root,1,0\n".toList

theorem keeps_iff_sample : Keeps plainShell noVars quiet 1 builddir [firstDone env] envFile ↔
    ((∃ w ∈ [firstDone env], w.skip = false) → ∃ id, lastSkip [firstDone env] id = some false) :=
  keeps_iff (insertion Step.id) plainShell noVars quiet 1 (by decide) (by simpa using proper_env) (by decide +kernel)

def comma : Arg := ⟨"a,b".toList,by decide⟩

def commaFile : Str := stepsHeader ++ "1,a,b,0,10,0,log,root,1,0\n".toList

/-- A step named with a comma is recorded with success, and the trap removes the directory. -/
theorem results_removed : writes (insertion Step.id) [firstDone comma] [] = some commaFile ∧
    ¬ Keeps plainShell noVars quiet 1 builddir [firstDone comma] commaFile := by
  refine ⟨by decide +kernel,?_⟩
  intro keeps
  have kept := keeps.1 ⟨firstDone comma,List.mem_singleton_self _,rfl⟩
  exact absurd kept (by decide +kernel)

end Robsd.TrapExit
