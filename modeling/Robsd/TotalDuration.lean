import Mathlib.Data.List.Induction
import Robsd.Modes
import Robsd.StepShell

/-!
The total duration, once in the report (step.c) and once in the shell
(util.sh). Either adds up the durations of the steps, or takes the time between
the first and the last step where steps may have run in parallel.
-/
namespace Robsd.TotalDuration
open Robsd.Strings
open Robsd.Modes (Mode)
open Robsd.Steps
open Robsd.StepFormat
open Robsd.Shell
open Robsd.StepShell

/-! ## The report -/

/-- The loop of `steps_total_duration`. -/
def stepsDuration : List Step → Int64 → Int64
  | [],duration => duration
  | st :: steps,duration =>
    if st.integer .skip = 1 then stepsDuration steps duration
    -- Do not include the previous total duration.
    else if st.string .name = "end".toList then stepsDuration steps duration
    else stepsDuration steps (duration+st.integer .duration)

/-- `steps_total_duration`. -/
def stepsTotalDuration (sf : StepFile) (mode : Mode) : Int64 :=
  if mode = .robsdRegress then
    match sf.steps.head?,sf.steps.getLast? with
    | some first,some last => last.integer .time-first.integer .time
    | _,_ => 0
  else stepsDuration sf.steps 0

/-! ## The shell -/

/-- The value of a variable in `$((..))`, which is empty or a decimal number here. -/
def arith (text : Str) : Int64 := Int64.ofInt ((numeric text).getD 0)

/-- `duration_total_parallel`: what it prints, and the variables afterwards. -/
def durationTotalParallel (sh : Interpreter) (file : Str) (vars : Vars) : Int64 :=
  let first := stepEval sh (.offset 1) file vars
  let t₀ := (first.map fun v => arith (stepValue sh v .time)).getD 0
  let last := stepEval sh (.offset (-1)) file (first.getD vars)
  let t₁ := (last.map fun v => arith (stepValue sh v .time)).getD 0
  t₁-t₀

/-- The loop of `duration_total` from the given offset on. -/
def durationTotalLoop (sh : Interpreter) (file : Str) (vars : Vars) (i : Nat) (tot : Int64) : Int64 :=
  match _found : stepEval sh (.offset (i+1)) file vars with
  | none => tot
  | some vars =>
    if stepSkip sh vars then durationTotalLoop sh file vars (i+1) tot
    else if stepValue sh vars .name = "end".toList then durationTotalLoop sh file vars (i+1) tot
    else durationTotalLoop sh file vars (i+1) (tot+arith (stepValue sh vars .duration))
termination_by stepCount file-i
decreasing_by
  all_goals
    have := stepEval_offset _found
    omega

/-- `duration_total`. -/
def durationTotal (sh : Interpreter) (mode : Mode) (file : Str) (vars : Vars) : Int64 :=
  match mode with
  | .canvas | .robsdRegress => durationTotalParallel sh file vars
  | _ => durationTotalLoop sh file vars 0 0

/-! ## As functions of the rows -/

/-- The duration of a row, as far as it counts. -/
def Row.counted (r : Row) : Int64 := if Row.skipped r ∨ r.name = "end".toList then 0 else r.duration

/-- The durations of the steps that were executed. -/
def accumulated (rows : List Row) : Int64 := (rows.map Row.counted).sum

/-- The time between the first and the last row. -/
def wallClock (rows : List Row) : Int64 :=
  match rows.head?,rows.getLast? with
  | some first,some last => last.time-first.time
  | _,_ => 0

theorem skip_iff (r : Row) : r.skip = 1 ↔ Row.skipped r = true := by
  have : (1 : Int64).toInt = 1 := by decide
  simp only [Row.skipped,decide_eq_true_eq]
  constructor
  · rintro same
    rw [same,this]
  · intro same
    exact Int64.toInt_inj.mp (by rw [same,this])

theorem stepSkip_rowVars (sh : Interpreter) (r : Row) (vars : Vars) :
    stepSkip sh (rowVars r vars) = Row.skipped r := testEq_skip sh r vars

theorem arith_text (n : Int64) : arith (Decimal.decimal n.toInt) = n := by
  simp [arith,numeric_decimal]

theorem stepsDuration_rows (rows : List Row) (duration : Int64) :
    stepsDuration (rows.map Row.toStep) duration = duration+accumulated rows := by
  induction rows generalizing duration with
  | nil => simp [stepsDuration,accumulated]
  | cons r rows ih =>
    have skip : r.toStep.integer .skip = r.skip := rfl
    have name : r.toStep.string .name = r.name := rfl
    have own : r.toStep.integer .duration = r.duration := rfl
    simp only [List.map_cons,stepsDuration,skip,name,own,ih,accumulated,List.sum_cons,skip_iff]
    by_cases skipped : Row.skipped r = true
    · simp [Row.counted,skipped]
    by_cases final : r.name = "end".toList
    · simp [Row.counted,final]
    · simp only [skipped,final,↓reduceIte,Row.counted,or_self,Bool.false_eq_true]
      rw [Int64.add_assoc]

theorem stepsTotalDuration_rows {sf : StepFile} {rows : List Row} (shape : sf.steps = rows.map Row.toStep)
    (mode : Mode) :
    stepsTotalDuration sf mode = if mode = .robsdRegress then wallClock rows else accumulated rows := by
  unfold stepsTotalDuration
  split
  · rw [shape,List.head?_map,List.getLast?_map,wallClock]
    cases rows.head? <;> cases rows.getLast? <;> rfl
  · rw [shape,stepsDuration_rows]
    simp

section
variable {file : Str} {rows : List Row} (here : Parsed file rows) (sh : Interpreter)
include here

theorem durationTotalLoop_rows (rest : List Row) (i : Nat) (vars : Vars) (tot : Int64) (left : rows.drop i = rest) :
    durationTotalLoop sh file vars i tot = tot+accumulated rest := by
  induction rest generalizing i vars tot with
  | nil =>
    have found := stepEval_nth here sh vars i
    rw [List.getElem?_eq_none (List.drop_eq_nil_iff.mp left)] at found
    rw [durationTotalLoop]
    split
    · simp [accumulated]
    · next some => rw [found] at some; cases some
  | cons r rest ih =>
    have within : i < rows.length := by
      have := congrArg List.length left
      simp only [List.length_drop,List.length_cons] at this
      omega
    rw [List.drop_eq_getElem_cons within] at left
    obtain ⟨rfl,later⟩ := List.cons.inj left
    have found := stepEval_nth here sh vars i
    rw [List.getElem?_eq_getElem within] at found
    rw [durationTotalLoop]
    split
    · next none => rw [found] at none; cases none
    · next v some =>
      rw [found] at some
      cases some
      have final := stepValue_end sh (here.wordy _ (List.getElem_mem within)) vars
      have own := stepValue_number sh rows[i] vars
        (show Row.text rows[i] .duration = Decimal.decimal rows[i].duration.toInt from rfl)
      simp only [stepSkip_rowVars,final,own,arith_text,ih _ _ _ later,accumulated,List.map_cons,List.sum_cons]
      by_cases skipped : Row.skipped rows[i] = true
      · simp [Row.counted,skipped]
      by_cases final : rows[i].name = "end".toList
      · simp [Row.counted,final]
      · simp only [skipped,final,↓reduceIte,Row.counted,or_self,Bool.false_eq_true]
        rw [Int64.add_assoc]

theorem durationTotalParallel_rows (vars : Vars) : durationTotalParallel sh file vars = wallClock rows := by
  have first : stepEval sh (.offset 1) file vars = rows[0]?.map fun r => rowVars r vars := stepEval_nth here sh vars 0
  have last : ∀ vars, stepEval sh (.offset (-1)) file vars = rows.reverse[0]?.map fun r => rowVars r vars :=
    fun vars => stepEval_last here sh vars 0
  have time : ∀ (r : Row) (vars : Vars), stepValue sh (rowVars r vars) .time = Decimal.decimal r.time.toInt :=
    fun r vars => stepValue_number sh r vars rfl
  simp only [durationTotalParallel,first,last,wallClock,← List.head?_eq_getElem?,List.head?_reverse,Option.map_map]
  cases rows using List.reverseRecOn with
  | nil => simp
  | append_singleton rows r =>
    obtain ⟨r',shape⟩ : ∃ r', (rows ++ [r]).head? = some r' := by
      cases rows <;> simp
    simp [shape,time,arith_text]

end

/-! ## Agreement -/

/-- On a file of plain words the two agree exactly when, for canvas, the durations
    add up to the time between the first and the last row. -/
theorem duration_agree_iff (sh : Interpreter) {file : Str} {sf : StepFile} {rows : List Row} (here : Parsed file rows)
    (parsed : stepsParse file = .ok sf) (mode : Mode) (vars : Vars) :
    stepsTotalDuration sf mode = durationTotal sh mode file vars ↔
      (mode = .canvas → accumulated rows = wallClock rows) := by
  obtain ⟨sf',parsed',shape⟩ := here.parsed
  rw [parsed,Except.ok.injEq] at parsed'
  subst parsed'
  have loop := durationTotalLoop_rows here sh rows 0 vars 0 rfl
  have parallel := durationTotalParallel_rows here sh vars
  rw [stepsTotalDuration_rows shape]
  cases mode <;> simp [durationTotal,loop,parallel]

/-- A file with two rows of the given durations and times. -/
def sampleRows : List Row := [⟨1,"one".toList,0,1,0,[],"u".toList,10,0⟩,⟨2,"end".toList,0,3,0,[],"u".toList,52,0⟩]

theorem sample_parsed : stepsParse (file sampleRows) = .ok ⟨StepReading.columns,sampleRows.map Row.toStep⟩ :=
  StepReading.stepsParse_file (by decide)

theorem sample_here : Parsed (file sampleRows) sampleRows := by
  refine ⟨⟨_,sample_parsed,rfl⟩,?_,by decide⟩
  unfold Wordy
  decide

theorem duration_agree_iff_sample :
    stepsTotalDuration ⟨StepReading.columns,sampleRows.map Row.toStep⟩ .robsd =
      durationTotal plainShell .robsd (file sampleRows) (fun _ => []) ↔
      (Mode.robsd = .canvas → accumulated sampleRows = wallClock sampleRows) :=
  duration_agree_iff plainShell sample_here sample_parsed .robsd fun _ => []

/-- In canvas mode the report says one second where the shell says 42. -/
theorem durations_differ : ¬ ∀ (sh : Interpreter) (file : Str) (sf : StepFile) (mode : Mode) (vars : Vars),
    stepsParse file = .ok sf → stepsTotalDuration sf mode = durationTotal sh mode file vars := by
  intro all
  have same := all plainShell (file sampleRows) _ .canvas (fun _ => []) sample_parsed
  rw [stepsTotalDuration_rows rfl,durationTotal,durationTotalParallel_rows sample_here] at same
  exact absurd same (by decide)

end Robsd.TotalDuration
