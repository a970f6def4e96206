import Robsd.Shell
import Robsd.StepMap

/-!
The shell functions around the step file (util.sh): `step_write`, `step_eval`
and the functions that look at the variables it sets. On a file of plain words
each of them is a function of the rows.
-/
namespace Robsd.StepShell
open Robsd.Strings
open Robsd.Decimal (decimal decimal_absent strtonum strtonum_decimal)
open Robsd.Interpolate (Expands interpolateFile_lines expands_reference_iff)
open Robsd.Shell
open Robsd.Sorting (Qsort)
open Robsd.Steps
open Robsd.StepCommand
open Robsd.StepFormat
open Robsd.StepReading
open Robsd.StepReadback (toInt_ofInt)
open Robsd.StepMap

/-! ## Writing -/

/-- The arguments of `step_write`, with the output of `logname` and `date`. -/
structure StepWrite where
  id : Arg
  name : Arg
  exit : Arg
  duration : Arg
  delta : Arg
  log : Arg
  user : Arg
  time : Option Arg
  skip : Bool

/-- A decimal number as an argument. -/
def decimalArg (n : Int) : Arg := ⟨decimal n,decimal_absent n (by decide) (by decide)⟩

/-- `"key=${val}"`. -/
def keyval (f : Field) (val : Arg) : Arg where
  str := (definition f).name ++ '=' :: val.str
  noNul member := by
    rcases List.mem_append.mp member with key | rest
    · exact (name_clean f).2.2 key
    · rcases List.mem_cons.mp rest with impossible | inside
      · exact absurd impossible (by decide)
      · exact val.noNul inside

/-- `${val:+key=${val}}`, which is not quoted. -/
def unquoted (f : Field) (val : Arg) : List Arg :=
  if val.str = [] then []
  else (splitFields (keyval f val).str).attach.map fun w =>
    ⟨w.1,fun member => (keyval f val).noNul (mem_splitFields w.2 _ member)⟩

/-- What `step_write` passes on. -/
def StepWrite.kvs (w : StepWrite) : List Arg :=
  [keyval .name w.name,keyval .exit w.exit,keyval .duration w.duration] ++ unquoted .delta w.delta ++
    unquoted .log w.log ++ [keyval .user w.user] ++ (w.time.map (unquoted .time)).getD [] ++
      [keyval .skip (decimalArg (if w.skip then 1 else 0))]

/-- `step_write`: its exit code and the content of the file. -/
def stepWrite (q : Qsort Step.id) (w : StepWrite) (file : Str) : Nat × Str :=
  if w.id.str = [] ∨ w.name.str = [] ∨ w.exit.str = [] ∨ w.duration.str = [] then (1,file)
  else robsdStepWrite q [.i w.id] w.kvs file

/-! ## Reading -/

/-- The step asked for: an offset from the start, from the end, or a name. -/
inductive Selector where
  | offset (n : Int)
  | named (name : Arg)

def Selector.options : Selector → List ReadOption
  | .offset n => [.i (decimalArg n)]
  | .named name => [.n name]

/-- The variable for a field. -/
def stepVar (f : Field) : Str := "_STEP_".toList ++ (definition f).name

/-- The fields in the order in which `step_eval` asks for them. -/
def evalFields : List Field := [.step,.name,.exit,.duration,.log,.time,.user,.skip,.delta]

def evalTemplate : Str := evalFields.flatMap fun f => stepVar f ++ '=' :: reference (definition f).name ++ ['\n']

/-- `step_eval`: the variables afterwards, none where it fails. -/
def stepEval (sh : Interpreter) (sel : Selector) (file : Str) (vars : Vars) : Option Vars :=
  match robsdStepRead file sel.options [] evalTemplate with
  | .error _ => none
  | .ok out => some (sh.eval out vars)

/-- `step_value`: what it prints for a variable that is set. -/
def stepValue (sh : Interpreter) (vars : Vars) (f : Field) : Str := sh.echo (vars (stepVar f))

/-- `step_skip`. -/
def stepSkip (sh : Interpreter) (vars : Vars) : Bool := testEq (stepValue sh vars .skip) 1

/-- The number of steps in a file. -/
def stepCount (file : Str) : Nat :=
  match stepsParse file with
  | .ok sf => sf.steps.length
  | .error _ => 0

theorem parseId_decimal {n : Int} (low : -intMax ≤ n) (high : n ≤ intMax) : parseId (decimal n) = .ok n := by
  simp only [parseId,strtonum_decimal low high]

theorem stepsGet_bound {steps : List Step} {n : Int} {st : Step} (found : stepsGet steps none n = .ok st) :
    n.natAbs ≤ steps.length := by
  simp only [stepsGet] at found
  split_ifs at found with positive negative
  · cases at_ : steps[(n-1).toNat]? with
    | none => rw [at_] at found; cases found
    | some _ =>
      have := (List.getElem?_eq_some_iff.mp at_).1
      omega
  · omega

/-- Only offsets within the file are found. -/
theorem stepEval_offset {sh : Interpreter} {n : Int} {file : Str} {vars vars' : Vars}
    (found : stepEval sh (.offset n) file vars = some vars') : n.natAbs ≤ stepCount file := by
  simp only [stepEval,robsdStepRead,stepCount] at found ⊢
  cases parsed : stepsParse file with
  | error e => simp [parsed] at found
  | ok sf =>
    cases options : readOptions [.i (decimalArg n)] none 0 with
    | error e => simp [parsed,stepsRead,Selector.options,options] at found
    | ok p =>
      cases identified : parseId (decimal n) with
      | error e => simp [readOptions,decimalArg,identified,Except.bind] at options
      | ok m =>
        have same : m = n := by
          unfold parseId at identified
          split at identified
          · next accepted =>
            cases identified
            exact Decimal.strtonum_decimal_ok accepted
          · cases identified
        subst same
        have chosen : readOptions (Selector.offset m).options none 0 = .ok (none,m) := by
          simp [readOptions,Selector.options,decimalArg,identified,Except.bind]
        simp only [parsed] at found
        cases read : stepsRead sf.steps (Selector.offset m).options [] evalTemplate with
        | error e => simp [read] at found
        | ok out =>
          obtain ⟨st,got,_⟩ := (stepsRead_ok_iff chosen (by simp)).mp read
          exact stepsGet_bound got

/-- The loop of `step_next` from the given offset from the end on. -/
def stepNextLoop (sh : Interpreter) (file : Str) (vars : Vars) (i : Nat) : Option Str :=
  match _found : stepEval sh (.offset (-(i+1))) file vars with
  | none => none
  | some vars =>
    if testEq (stepValue sh vars .skip) 1 then stepNextLoop sh file vars (i+1)
    else
      let step := stepValue sh vars .step
      let exit := numeric (stepValue sh vars .exit)
      if exit.isSome ∧ exit ≠ some 0 then some step
      else if stepValue sh vars .name = "end".toList then some step
      else some (decimal ((numeric step).getD 0+1))
termination_by stepCount file-i
decreasing_by
  have := stepEval_offset _found
  omega

/-- `step_next`: what it prints. -/
def stepNext (sh : Interpreter) (file : Str) (vars : Vars) : Option Str := stepNextLoop sh file vars 0

/-- The loop of `has_steps` from the given offset on. -/
def hasStepsLoop (sh : Interpreter) (file : Str) (vars : Vars) (i : Nat) : Bool :=
  match _found : stepEval sh (.offset (i+1)) file vars with
  | none => false
  | some vars => if testEq (stepValue sh vars .skip) 1 then hasStepsLoop sh file vars (i+1) else true
termination_by stepCount file-i
decreasing_by
  have := stepEval_offset _found
  omega

/-- `has_steps`. -/
def hasSteps (sh : Interpreter) (file : Str) (vars : Vars) : Bool := hasStepsLoop sh file vars 0

/-! ## Files of plain words -/

/-- A row whose texts the shell takes as they are. -/
def Wordy (r : Row) : Prop := Word r.name ∧ Word r.log ∧ Word r.user

theorem wordy_text {r : Row} (wordy : Wordy r) (f : Field) : Word (r.text f) := by
  obtain ⟨name,log,user⟩ := wordy
  cases f <;> first | exact word_decimal _ | assumption

theorem stepVar_word (f : Field) : Word (stepVar f) := by cases f <;> decide

/-- The variables `step_eval` sets for a row. -/
def rowVars (r : Row) (vars : Vars) : Vars := assigned vars (evalFields.map fun f => (stepVar f,r.text f))

theorem rowVars_stepVar (r : Row) (vars : Vars) (f : Field) : rowVars r vars (stepVar f) = r.text f := by
  refine assigned_mem ?_ vars (List.mem_map.mpr ⟨f,by cases f <;> decide,rfl⟩)
  rw [List.map_map]
  exact show (evalFields.map stepVar).Nodup by decide

theorem stepValue_rowVars (sh : Interpreter) (r : Row) (vars : Vars) {f : Field} (word : Word (r.text f)) :
    stepValue sh (rowVars r vars) f = echoed (r.text f) := by
  rw [stepValue,rowVars_stepVar,sh.echoes _ word]

/-- A number is printed as it is. -/
theorem stepValue_number (sh : Interpreter) (r : Row) (vars : Vars) {f : Field} {n : Int}
    (number : r.text f = decimal n) :
    stepValue sh (rowVars r vars) f = decimal n := by
  rw [stepValue_rowVars sh r vars (number ▸ word_decimal n),number,echoed_decimal]

theorem stepValue_end (sh : Interpreter) {r : Row} (wordy : Wordy r) (vars : Vars) :
    stepValue sh (rowVars r vars) .name = "end".toList ↔ r.name = "end".toList := by
  rw [stepValue_rowVars sh r vars (wordy_text wordy .name)]
  exact echoed_eq_iff (by decide) (by decide)

/-- Whatever way a row is found, its texts are assigned. -/
theorem stepEval_row (sh : Interpreter) {sel : Selector} {file : Str} {sf : StepFile} {rows : List Row} {r : Row}
    {name : Option Str} {id : Int} (parsed : stepsParse file = .ok sf) (shape : sf.steps = rows.map Row.toStep)
    (options : readOptions sel.options none 0 = .ok (name,id)) (single : ¬ (name.isSome ∧ id ≠ 0))
    (got : stepsGet (rows.map Row.toStep) name id = .ok r.toStep) (wordy : Wordy r) (vars : Vars) :
    stepEval sh sel file vars = some (rowVars r vars) := by
  have words := wordy_text wordy
  have line : ∀ f, '\n' ∉ stepVar f ++ '=' :: reference (definition f).name ∧
    nul ∉ stepVar f ++ '=' :: reference (definition f).name := by
    intro f
    cases f <;> decide
  have expands : ∀ f, Expands (stepInterpolateLookup r.toStep) 4 (stepVar f ++ '=' :: reference (definition f).name)
      (stepVar f ++ '=' :: r.text f) := by
    intro f
    have before : '$' ∉ stepVar f ++ ['='] := by
      cases f <;> decide
    have template : stepVar f ++ '=' :: reference (definition f).name =
        (stepVar f ++ ['=']) ++ '$' :: '{' :: ((definition f).name ++ '}' :: []) := by
      simp [reference]
    rw [template,expands_reference_iff before (name_no_brace f) (name_ne_nil f)]
    exact ⟨r.text f,r.text f,[],lookup_toStep r f,.plain (word_absent (words f) (by decide)),.plain (by simp),by simp⟩
  have printed := interpolateFile_lines (stepInterpolateLookup r.toStep)
    (evalFields.map fun f => (stepVar f ++ '=' :: reference (definition f).name,stepVar f ++ '=' :: r.text f)) 0 (by
      intro l member
      obtain ⟨f,_,rfl⟩ := List.mem_map.mp member
      exact ⟨(line f).1,(line f).2,expands f⟩)
  have template : evalTemplate = (evalFields.map fun f => (stepVar f ++ '=' :: reference (definition f).name,
      stepVar f ++ '=' :: r.text f)).flatMap fun l => l.1 ++ ['\n'] := by
    rw [List.flatMap_map]
    rfl
  have output : ((evalFields.map fun f => (stepVar f ++ '=' :: reference (definition f).name,
      stepVar f ++ '=' :: r.text f)).flatMap fun l => l.2 ++ ['\n']) =
        assignments (evalFields.map fun f => (stepVar f,r.text f)) := by
    rw [assignments,List.flatMap_map,List.flatMap_map]
  rw [← template,output] at printed
  have read : robsdStepRead file sel.options [] evalTemplate =
    .ok (assignments (evalFields.map fun f => (stepVar f,r.text f))) := by
    simp only [robsdStepRead,parsed,shape]
    exact (stepsRead_ok_iff options single).mpr ⟨r.toStep,got,printed⟩
  simp only [stepEval,read,rowVars]
  rw [sh.assigns _ _ ?_]
  intro p member
  obtain ⟨f,_,rfl⟩ := List.mem_map.mp member
  exact ⟨stepVar_word f,words f⟩

/-- A file that was read, with its rows. -/
structure Parsed (file : Str) (rows : List Row) : Prop where
  parsed : ∃ sf, stepsParse file = .ok sf ∧ sf.steps = rows.map Row.toStep
  wordy : ∀ r ∈ rows, Wordy r
  short : (rows.length : Int) ≤ intMax

theorem offset_options {n : Int} (low : -intMax ≤ n) (high : n ≤ intMax) :
    readOptions (Selector.offset n).options none 0 = .ok (none,n) := by
  simp [readOptions,Selector.options,decimalArg,parseId_decimal low high,Except.bind]

section
variable {file : Str} {rows : List Row} (here : Parsed file rows) (sh : Interpreter) (vars : Vars)
include here

theorem stepCount_rows : stepCount file = rows.length := by
  obtain ⟨sf,parsed,shape⟩ := here.parsed
  simp [stepCount,parsed,shape]

/-- An offset from the start finds the row at that place. -/
theorem stepEval_nth (i : Nat) : stepEval sh (.offset (i+1)) file vars = rows[i]?.map fun r => rowVars r vars := by
  obtain ⟨sf,parsed,shape⟩ := here.parsed
  have short := here.short
  cases row : rows[i]? with
  | some r =>
    obtain ⟨within,rfl⟩ := List.getElem?_eq_some_iff.mp row
    refine stepEval_row sh parsed shape (offset_options (by simp only [intMax]; omega) (by omega)) (by simp) ?_
      (here.wordy _ (List.getElem_mem within)) vars
    simp [stepsGet,show (0 : Int) < i+1 from by omega,within]
  | none =>
    have beyond := List.getElem?_eq_none_iff.mp row
    cases found : stepEval sh (.offset (i+1)) file vars with
    | none => rfl
    | some _ =>
      have := stepEval_offset found
      rw [stepCount_rows here] at this
      omega

/-- An offset from the end finds the row at that place. -/
theorem stepEval_last (i : Nat) :
    stepEval sh (.offset (-(i+1))) file vars = rows.reverse[i]?.map fun r => rowVars r vars := by
  obtain ⟨sf,parsed,shape⟩ := here.parsed
  have short := here.short
  cases row : rows.reverse[i]? with
  | some r =>
    obtain ⟨within,rfl⟩ := List.getElem?_eq_some_iff.mp row
    have inside : i < rows.length := by simpa using within
    refine stepEval_row sh parsed shape (offset_options (by omega) (by simp only [intMax]; omega)) (by simp) ?_
      (here.wordy _ (List.mem_reverse.mp (List.getElem_mem within))) vars
    have place : ((rows.length : Int)+-(i+1)).toNat = rows.length-1-i := by omega
    simp only [stepsGet,List.length_map,place]
    rw [if_neg (by omega),if_pos (by omega),List.getElem?_map,List.getElem?_eq_getElem (by omega)]
    simp [List.getElem_reverse]
  | none =>
    have beyond := List.getElem?_eq_none_iff.mp row
    rw [List.length_reverse] at beyond
    cases found : stepEval sh (.offset (-(i+1))) file vars with
    | none => rfl
    | some _ =>
      have := stepEval_offset found
      rw [stepCount_rows here] at this
      omega

end

theorem numeric_decimal (n : Int64) : numeric (decimal n.toInt) = some n.toInt := by
  obtain ⟨low,high⟩ := int64_bounds n
  have read := strtonum_decimal low high
  simp only [llongMin,llongMax] at read
  simp only [numeric,read]
  rfl

/-- Whether a row is marked to be skipped. -/
def Row.skipped (r : Row) : Bool := r.skip.toInt = 1

theorem testEq_skip (sh : Interpreter) (r : Row) (vars : Vars) :
    testEq (stepValue sh (rowVars r vars) .skip) 1 = Row.skipped r := by
  rw [stepValue_number sh r vars rfl]
  simp [testEq,numeric_decimal,Row.skipped]

/-- The number `step_next` prints for the last row that is not skipped. -/
def Row.next (r : Row) : Int := if r.exit.toInt ≠ 0 then r.id else if r.name = "end".toList then r.id else r.id+1

/-- What `step_next` prints, as a function of the rows. -/
def rowsNext (rows : List Row) : Option Int := (rows.reverse.find? fun r => !Row.skipped r).map Row.next

theorem stepNext_rows {file : Str} {rows : List Row} (here : Parsed file rows) (sh : Interpreter) (vars : Vars) :
    stepNext sh file vars = (rowsNext rows).map decimal := by
  have loop : ∀ (rest : List Row) (i : Nat) (vars : Vars), rows.reverse.drop i = rest →
      stepNextLoop sh file vars i = ((rest.find? fun r => !Row.skipped r).map Row.next).map decimal := by
    intro rest
    induction rest with
    | nil =>
      intro i vars beyond
      have found := stepEval_last here sh vars i
      rw [List.getElem?_eq_none (List.drop_eq_nil_iff.mp beyond)] at found
      rw [stepNextLoop]
      split
      · rfl
      · next some => rw [found] at some; cases some
    | cons r rest ih =>
      intro i vars ahead
      have within : i < rows.reverse.length := by
        have := congrArg List.length ahead
        simp only [List.length_drop,List.length_cons] at this
        omega
      rw [List.drop_eq_getElem_cons within] at ahead
      obtain ⟨rfl,later⟩ := List.cons.inj ahead
      have found := stepEval_last here sh vars i
      rw [List.getElem?_eq_getElem within] at found
      rw [stepNextLoop]
      split
      · next none => rw [found] at none; cases none
      · next some =>
        rw [found] at some
        cases some
        have wordy := here.wordy _ (List.mem_reverse.mp (List.getElem_mem within))
        rw [testEq_skip,List.find?_cons]
        generalize rows.reverse[i] = r at wordy
        by_cases skip : Row.skipped r = true
        · simp only [skip,↓reduceIte,Bool.not_true]
          exact ih (i+1) _ later
        · rw [Bool.not_eq_true] at skip
          simp only [skip,Bool.false_eq_true,↓reduceIte,Bool.not_false,Option.map_some,stepValue_end sh wordy,
            stepValue_number sh r vars (show r.text .step = decimal r.step.toInt from rfl),
            stepValue_number sh r vars (show r.text .exit = decimal r.exit.toInt from rfl),
            numeric_decimal,Option.isSome_some,ne_eq,Option.some.injEq,true_and,Option.getD_some,Row.next,Row.id]
          split_ifs <;> rfl
  exact loop rows.reverse 0 vars rfl

theorem hasSteps_rows {file : Str} {rows : List Row} (here : Parsed file rows) (sh : Interpreter) (vars : Vars) :
    hasSteps sh file vars = rows.any fun r => !Row.skipped r := by
  have loop : ∀ (rest : List Row) (i : Nat) (vars : Vars), rows.drop i = rest →
      hasStepsLoop sh file vars i = rest.any fun r => !Row.skipped r := by
    intro rest
    induction rest with
    | nil =>
      intro i vars beyond
      have found := stepEval_nth here sh vars i
      rw [List.getElem?_eq_none (List.drop_eq_nil_iff.mp beyond)] at found
      rw [hasStepsLoop]
      split
      · rfl
      · next some => rw [found] at some; cases some
    | cons r rest ih =>
      intro i vars ahead
      have within : i < rows.length := by
        have := congrArg List.length ahead
        simp only [List.length_drop,List.length_cons] at this
        omega
      rw [List.drop_eq_getElem_cons within] at ahead
      obtain ⟨rfl,later⟩ := List.cons.inj ahead
      have found := stepEval_nth here sh vars i
      rw [List.getElem?_eq_getElem within] at found
      rw [hasStepsLoop]
      split
      · next none => rw [found] at none; cases none
      · next some =>
        rw [found] at some
        cases some
        rw [testEq_skip,List.any_cons]
        by_cases skip : Row.skipped rows[i] = true
        · simp only [skip,↓reduceIte,Bool.not_true,Bool.false_or]
          exact ih (i+1) _ later
        · simp [skip]
  exact loop rows 0 vars rfl

/-- The test of the loop over the steps: the row found by the name is marked. -/
def stepSkipped (sh : Interpreter) (name : Arg) (file : Str) (vars : Vars) : Bool :=
  match stepEval sh (.named name) file vars with
  | none => false
  | some vars => stepSkip sh vars

/-- The same of the rows. -/
def rowsSkipped (rows : List Row) (name : Str) : Bool := (rows.find? (·.name = name)).any Row.skipped

theorem stepsFindByName_rows (rows : List Row) (name : Str) :
    stepsFindByName (rows.map Row.toStep) name = (rows.find? fun r => r.name = name).map Row.toStep := by
  rw [stepsFindByName,List.find?_map]
  rfl

theorem stepsFindById_rows (rows : List Row) (id : Int) :
    stepsFindById (rows.map Row.toStep) id = (rows.find? (·.id = id)).map Row.toStep := by
  rw [stepsFindById,List.find?_map]
  congr 2

theorem stepSkipped_rows {file : Str} {rows : List Row} (here : Parsed file rows) (sh : Interpreter)
    (name : Arg) (vars : Vars) :
    stepSkipped sh name file vars = rowsSkipped rows name.str := by
  obtain ⟨sf,parsed,shape⟩ := here.parsed
  have options : readOptions (Selector.named name).options none 0 = .ok (some name.str,0) := rfl
  have find := stepsFindByName_rows rows name.str
  cases row : rows.find? (·.name = name.str) with
  | some r =>
    have got : stepsGet (rows.map Row.toStep) (some name.str) 0 = .ok r.toStep := by
      simp [stepsGet,find,row]
    have member := List.mem_of_find?_eq_some row
    simp only [stepSkipped,stepEval_row sh parsed shape options (by simp) got (here.wordy r member) vars,
      stepSkip,testEq_skip,rowsSkipped,row,Option.any_some]
  | none =>
    have none : stepEval sh (.named name) file vars = none := by
      cases read : robsdStepRead file (Selector.named name).options [] evalTemplate with
      | error e => simp [stepEval,read]
      | ok out =>
        simp only [robsdStepRead,parsed,shape] at read
        obtain ⟨st,got,_⟩ := (stepsRead_ok_iff options (by simp)).mp read
        simp [stepsGet,find,row] at got
    simp [stepSkipped,none,rowsSkipped,row]

end Robsd.StepShell
