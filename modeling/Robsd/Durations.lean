import Mathlib.Data.List.Basic
import Mathlib.Tactic.Ring
import Robsd.ConfigLayout
import Robsd.TotalDuration

/-!
Durations in the report (report.c): how a duration and its difference to the
previous one are written, and which duration is shown for an invocation.
-/
namespace Robsd.Durations
open Robsd.Strings
open Robsd.Decimal (Numeral decimal decimal_absent decimal_ne_nil numeral_decimal strtoll_numeral)
open Robsd.ConfigLexer (i32)
open Robsd.Modes (Mode)
open Robsd.Steps
open Robsd.StepFormat
open Robsd.StepShell
open Robsd.TotalDuration

/-! ## Formatting -/

/-- The conversion `%02d`. -/
def twoDigits (n : Int) : Str := if (decimal n).length < 2 then '0' :: decimal n else decimal n

/-- The value of an `int` to which a duration is cast. -/
def int (n : Int64) : Int := i32 n.toInt

/-- `format_duration`. -/
def formatDuration (duration : Int64) : Str :=
  let hours := duration/3600
  let duration := duration%3600
  let minutes := duration/60
  let duration := duration%60
  let seconds := duration
  twoDigits (int hours) ++ ':' :: twoDigits (int minutes) ++ ':' :: twoDigits (int seconds)

/-- `format_duration_and_delta`. -/
def formatDurationAndDelta (duration delta deltaThreshold : Int64) : Str :=
  if delta = 0 then formatDuration duration
  else
    let deltaAbs := if delta < 0 then -delta else delta
    if deltaAbs ≤ deltaThreshold then formatDuration duration
    else formatDuration duration ++ [' ','('] ++ (if delta < 0 then '-' else '+') :: formatDuration deltaAbs ++ [')']

/-- `threshold_duration_s`. -/
def thresholdDurationS : Int64 := 60

/-- The duration and the difference that `report_stats_duration` shows. -/
def statsDuration (sf : StepFile) (mode : Mode) : Int64 × Int64 :=
  match stepsFindByName sf.steps "end".toList with
  | some final => (final.integer .duration,final.integer .delta)
  | none => (stepsTotalDuration sf mode,0)

/-- `report_stats_duration`. -/
def reportStatsDuration (sf : StepFile) (mode : Mode) : Str :=
  formatDurationAndDelta (statsDuration sf mode).1 (statsDuration sf mode).2 thresholdDurationS

/-! ## Two digits -/

theorem numeral_twoDigits (n : Int) : Numeral (twoDigits n) n := by
  unfold twoDigits
  split
  · next short =>
    have number := numeral_decimal n
    generalize decimal n = text at short number
    cases number with
    | unsigned _ all =>
      have padded := Numeral.unsigned (List.cons_ne_nil '0' text) fun c member => by
        rcases List.mem_cons.mp member with rfl | digit
        · decide
        · exact all c digit
      rw [Nat.ofDigitChars_cons] at padded
      exact padded
    | @negative digits nonempty _ =>
      have some := List.length_pos_iff.mpr nonempty
      simp only [List.length_cons] at short
      omega
  · exact numeral_decimal n

theorem twoDigits_injective {m n : Int} (same : twoDigits m = twoDigits n) : m = n := by
  have read := strtoll_numeral (numeral_twoDigits m)
  rw [same,strtoll_numeral (numeral_twoDigits n)] at read
  simpa using read.symm

theorem twoDigits_absent (n : Int) {c : Char} (notDigit : isdigit c = false) (notMinus : c ≠ '-') :
    c ∉ twoDigits n := by
  have absent := decimal_absent n notDigit notMinus
  unfold twoDigits
  split
  · have notZero : c ≠ '0' := by
      rintro rfl
      cases notDigit
    simp [absent,notZero]
  · exact absent

/-! ## Clocks -/

/-- The text HH:MM:SS that denotes a number of seconds, with minutes and seconds
    below sixty. -/
def Clock (text : Str) (n : Int) : Prop :=
  ∃ (h : Int) (m s : Nat), m < 60 ∧ s < 60 ∧ text = twoDigits h ++ ':' :: twoDigits m ++ ':' :: twoDigits s ∧
    n = h*3600+m*60+s

/-- The numbers of seconds that fit a clock. -/
def Fits (n : Int) : Prop := (0 ≤ n ∨ n.tmod 3600 = 0) ∧ i32 (n.tdiv 3600) = n.tdiv 3600

instance : DecidablePred Fits := fun _ => inferInstanceAs (Decidable (_ ∧ _))

/-- Division that truncates: quotient and remainder, which has the sign of the dividend. -/
theorem truncated (n : Int) {k : Int} (positive : 0 < k) : k*n.tdiv k+n.tmod k = n ∧ -k < n.tmod k ∧ n.tmod k < k ∧
    (0 ≤ n → 0 ≤ n.tmod k) ∧ (n ≤ 0 → n.tmod k ≤ 0) := by
  refine ⟨Int.mul_tdiv_add_tmod n k,Int.lt_tmod_of_pos n positive,Int.tmod_lt_of_pos n positive,
    Int.tmod_nonneg k,?_⟩
  intro low
  have mirrored := Int.tmod_nonneg k (show 0 ≤ -n by omega)
  rw [Int.neg_tmod] at mirrored
  omega

theorem int_small {n : Int64} (low : -3600 < n.toInt) (high : n.toInt < 3600) : int n = n.toInt :=
  ConfigLayout.i32_of_bounds (by omega) (by omega)

/-- The three numbers of a duration. -/
theorem formatDuration_eq (duration : Int64) : formatDuration duration =
    twoDigits (i32 (duration.toInt.tdiv 3600)) ++ ':' :: twoDigits ((duration.toInt.tmod 3600).tdiv 60) ++
      ':' :: twoDigits ((duration.toInt.tmod 3600).tmod 60) := by
  have hours : (duration/3600).toInt = duration.toInt.tdiv 3600 := Int64.toInt_div_of_ne_right _ _ (by decide)
  have rest : (duration%3600).toInt = duration.toInt.tmod 3600 := Int64.toInt_mod _ _
  have minutes : (duration%3600/60).toInt = (duration.toInt.tmod 3600).tdiv 60 := by
    rw [Int64.toInt_div_of_ne_right _ _ (by decide),rest]
    rfl
  have seconds : (duration%3600%60).toInt = (duration.toInt.tmod 3600).tmod 60 := by
    rw [Int64.toInt_mod,rest]
    rfl
  obtain ⟨_,low,high,_⟩ := truncated duration.toInt (k := 3600) (by decide)
  obtain ⟨whole,low',high',_⟩ := truncated (duration.toInt.tmod 3600) (k := 60) (by decide)
  have smallMinutes : int (duration%3600/60) = (duration.toInt.tmod 3600).tdiv 60 := by
    rw [int_small (by rw [minutes]; omega) (by rw [minutes]; omega),minutes]
  have smallSeconds : int (duration%3600%60) = (duration.toInt.tmod 3600).tmod 60 := by
    rw [int_small (by rw [seconds]; omega) (by rw [seconds]; omega),seconds]
  have cast : int (duration/3600) = i32 (duration.toInt.tdiv 3600) := by rw [int,hours]
  simp only [formatDuration,smallMinutes,smallSeconds,cast]

/-- A text has one colon between the numbers it is made of. -/
theorem colon_inj {a b a' b' : Str} (absent : ':' ∉ a) (absent' : ':' ∉ a') (same : a ++ ':' :: b = a' ++ ':' :: b') :
    a = a' ∧ b = b' := by
  have found := strchr_append absent b
  rw [same,strchr_append absent' b'] at found
  simpa [eq_comm] using found

/-- A duration is written as a clock exactly if it fits one. -/
theorem formatDuration_clock (duration : Int64) :
    Clock (formatDuration duration) duration.toInt ↔ Fits duration.toInt := by
  have colon : ∀ n, ':' ∉ twoDigits n := fun n => twoDigits_absent n (by decide) (by decide)
  obtain ⟨whole,low,high,nonneg,nonpos⟩ := truncated duration.toInt (k := 3600) (by decide)
  obtain ⟨rest,low',high',nonneg',nonpos'⟩ := truncated (duration.toInt.tmod 3600) (k := 60) (by decide)
  rw [formatDuration_eq]
  constructor
  · rintro ⟨h,m,s,minutes,seconds,text,value⟩
    simp only [List.append_assoc,List.cons_append] at text
    obtain ⟨first,tail⟩ := colon_inj (colon _) (colon _) text
    obtain ⟨second,third⟩ := colon_inj (colon _) (colon _) tail
    replace first := twoDigits_injective first
    replace second := twoDigits_injective second
    replace third := twoDigits_injective third
    refine ⟨?_,by omega⟩
    by_cases negative : 0 ≤ duration.toInt
    · exact .inl negative
    · right
      omega
  · rintro ⟨shape,fits⟩
    have some : 0 ≤ duration.toInt.tmod 3600 := by
      rcases shape with positive | whole
      · exact nonneg positive
      · omega
    have := nonneg' some
    refine ⟨duration.toInt.tdiv 3600,((duration.toInt.tmod 3600).tdiv 60).toNat,
      ((duration.toInt.tmod 3600).tmod 60).toNat,by omega,by omega,?_,by omega⟩
    rw [fits,Int.toNat_of_nonneg (by omega),Int.toNat_of_nonneg (by omega)]

/-! ## Differences -/

/-- A difference in parentheses, with its sign. -/
def Difference (text : Str) (delta : Int) : Prop :=
  ∃ clock, text = [' ','('] ++ (if delta < 0 then '-' else '+') :: clock ++ [')'] ∧ Clock clock delta.natAbs

/-- A clock for the duration, and the difference behind it exactly if it exceeds the threshold. -/
def Faithful (text : Str) (duration delta threshold : Int) : Prop :=
  ∃ clock rest, text = clock ++ rest ∧ Clock clock duration ∧
    if threshold < delta.natAbs then Difference rest delta else rest = []

/-- What `format_duration_and_delta` writes behind the duration. -/
def behind (delta deltaThreshold : Int64) : Str :=
  if delta = 0 then []
  else
    let deltaAbs := if delta < 0 then -delta else delta
    if deltaAbs ≤ deltaThreshold then []
    else [' ','('] ++ (if delta < 0 then '-' else '+') :: formatDuration deltaAbs ++ [')']

theorem formatDurationAndDelta_eq (duration delta deltaThreshold : Int64) :
    formatDurationAndDelta duration delta deltaThreshold = formatDuration duration ++ behind delta deltaThreshold := by
  unfold formatDurationAndDelta behind
  by_cases zero : delta = 0
  · simp only [zero,↓reduceIte,List.append_nil]
  · rw [if_neg zero,if_neg zero]
    dsimp only
    by_cases short : (if delta < 0 then -delta else delta) ≤ deltaThreshold
    · rw [if_pos short,if_pos short,List.append_nil]
    · rw [if_neg short,if_neg short]
      simp only [List.append_assoc]

theorem formatDuration_space (duration : Int64) : ' ' ∉ formatDuration duration := by
  have absent : ∀ n, ' ' ∉ twoDigits n := fun n => twoDigits_absent n (by decide) (by decide)
  rw [formatDuration_eq]
  simp [absent]

theorem clock_space {text : Str} {n : Int} (clock : Clock text n) : ' ' ∉ text := by
  have absent : ∀ n, ' ' ∉ twoDigits n := fun n => twoDigits_absent n (by decide) (by decide)
  obtain ⟨h,m,s,_,_,rfl,_⟩ := clock
  simp [absent]

/-- Nothing, or something that starts with a space. -/
def Spaced (text : Str) : Prop := ∀ c ∈ text.head?, c = ' '

theorem behind_spaced (delta deltaThreshold : Int64) : Spaced (behind delta deltaThreshold) := by
  unfold behind Spaced
  dsimp only
  split_ifs <;> simp

theorem spaced_inj :
    ∀ {a b a' b' : Str}, ' ' ∉ a → ' ' ∉ a' → Spaced b → Spaced b' → a ++ b = a' ++ b' → a = a' ∧ b = b'
  | [],b,[],b',_,_,_,_,same => ⟨rfl,same⟩
  | c :: a,b,c' :: a',b',absent,absent',spaced,spaced',same => by
    simp only [List.mem_cons,not_or] at absent absent'
    obtain ⟨rfl,rest⟩ := List.cons.inj same
    obtain ⟨rfl,rfl⟩ := spaced_inj absent.2 absent'.2 spaced spaced' rest
    exact ⟨rfl,rfl⟩
  | [],b,c' :: a',b',_,absent',spaced,_,same => by
    rw [List.nil_append] at same
    have space := spaced c' (by rw [same]; rfl)
    simp [space] at absent'
  | c :: a,b,[],b',absent,_,_,spaced',same => by
    rw [List.nil_append] at same
    have space := spaced' c (by rw [← same]; rfl)
    simp [space] at absent

/-- The absolute value of a difference overflows for the least one only. -/
theorem abs_toInt {delta : Int64} (notLeast : delta ≠ Int64.minValue) :
    (if delta < 0 then -delta else delta).toInt = delta.toInt.natAbs := by
  split
  · next negative =>
    have low : delta.toInt < 0 := Int64.lt_iff_toInt_lt.mp negative
    have above : -9223372036854775808 ≤ delta.toInt := delta.le_toInt
    have other : delta.toInt ≠ -9223372036854775808 := fun same => notLeast (Int64.toInt_inj.mp same)
    rw [Int64.toInt_neg,Int.bmod_eq_of_le (by omega) (by omega)]
    omega
  · next positive =>
    have high : 0 ≤ delta.toInt := by
      have := mt Int64.lt_iff_toInt_lt.mpr positive
      simpa using this
    omega

theorem fits_nonneg {n : Int} (positive : 0 ≤ n) : Fits n ↔ n.tdiv 3600 ≤ 2147483647 := by
  have quotient : 0 ≤ n.tdiv 3600 := Int.tdiv_nonneg positive (by decide)
  constructor
  · rintro ⟨_,fits⟩
    have : i32 (n.tdiv 3600) < 2147483648 := by
      exact (@Int.bmod_lt (n.tdiv 3600) (2^32) (by decide))
    omega
  · intro fits
    exact ⟨.inl positive,ConfigLayout.i32_of_bounds (by omega) fits⟩

theorem least_unfit : ¬ Fits (Int64.minValue.toInt.natAbs : Int) := by
  rw [fits_nonneg (by omega)]
  decide

/-- What is written behind a duration is the difference exactly if it is due. -/
theorem behind_iff (delta deltaThreshold : Int64) :
    (if deltaThreshold.toInt < delta.toInt.natAbs then Difference (behind delta deltaThreshold) delta.toInt
      else behind delta deltaThreshold = []) ↔
      (deltaThreshold.toInt < delta.toInt.natAbs → delta ≠ 0 ∧ Fits delta.toInt.natAbs) := by
  by_cases zero : delta = 0
  · have empty : behind delta deltaThreshold = [] := by rw [behind,if_pos zero]
    rw [empty]
    split
    · next due =>
      refine iff_of_false ?_ fun impossible => (impossible due).1 zero
      rintro ⟨clock,impossible,_⟩
      cases impossible
    · next none => exact iff_of_true rfl fun due => absurd due none
  by_cases least : delta = Int64.minValue
  · have size : (delta.toInt.natAbs : Int) = 9223372036854775808 := by rw [least]; decide
    have due : deltaThreshold.toInt < delta.toInt.natAbs := by
      have := deltaThreshold.toInt_lt
      omega
    have low : deltaThreshold.toInt ≥ -9223372036854775808 := deltaThreshold.le_toInt
    have empty : behind delta deltaThreshold = [] := by
      have short : (if delta < 0 then -delta else delta) ≤ deltaThreshold := by
        rw [least,Int64.le_iff_toInt_le]
        exact low
      rw [behind,if_neg zero]
      dsimp only
      rw [if_pos short]
    rw [empty,if_pos due]
    refine iff_of_false ?_ fun impossible => least_unfit (least ▸ (impossible due).2)
    rintro ⟨clock,impossible,_⟩
    cases impossible
  have size := abs_toInt least
  by_cases due : deltaThreshold.toInt < delta.toInt.natAbs
  · have long : ¬ (if delta < 0 then -delta else delta) ≤ deltaThreshold := by
      rw [Int64.le_iff_toInt_le,size]
      omega
    have text : behind delta deltaThreshold =
        [' ','('] ++ (if delta < 0 then '-' else '+') ::
          formatDuration (if delta < 0 then -delta else delta) ++ [')'] := by
      rw [behind,if_neg zero]
      dsimp only
      rw [if_neg long]
    have sign : (delta < 0) ↔ (delta.toInt < 0) := Int64.lt_iff_toInt_lt
    have clock := formatDuration_clock (if delta < 0 then -delta else delta)
    rw [size] at clock
    rw [if_pos due,text]
    constructor
    · rintro ⟨digits,same,shown⟩ _
      simp only [sign,List.cons_append,List.nil_append,List.cons.injEq,true_and,List.append_cancel_right_eq] at same
      refine ⟨zero,clock.mp ?_⟩
      simp only [sign,same]
      exact shown
    · intro fine
      refine ⟨_,?_,clock.mpr (fine due).2⟩
      simp only [sign]
  · have short : (if delta < 0 then -delta else delta) ≤ deltaThreshold := by
      rw [Int64.le_iff_toInt_le,size]
      omega
    have empty : behind delta deltaThreshold = [] := by
      rw [behind,if_neg zero]
      dsimp only
      rw [if_pos short]
    rw [if_neg due,empty]
    exact iff_of_true rfl fun impossible => absurd impossible due

theorem formatDurationAndDelta_faithful (duration delta deltaThreshold : Int64) :
    Faithful (formatDurationAndDelta duration delta deltaThreshold) duration.toInt delta.toInt deltaThreshold.toInt ↔
      Fits duration.toInt ∧ (deltaThreshold.toInt < delta.toInt.natAbs → delta ≠ 0 ∧ Fits delta.toInt.natAbs) := by
  rw [← formatDuration_clock,← behind_iff,formatDurationAndDelta_eq]
  constructor
  · rintro ⟨clock,rest,same,shown,difference⟩
    have spaced : Spaced rest := by
      split at difference
      · obtain ⟨digits,rfl,_⟩ := difference
        simp [Spaced]
      · rw [difference]
        simp [Spaced]
    obtain ⟨rfl,rfl⟩ := spaced_inj (formatDuration_space duration) (clock_space shown) (behind_spaced _ _) spaced same
    exact ⟨shown,difference⟩
  · rintro ⟨shown,difference⟩
    exact ⟨_,_,rfl,shown,difference⟩

/-! ## Totals -/

/-- The step has not ended: its exit code is the one written when it was started. -/
def Row.running (r : Row) : Bool := r.exit = -1

/-- The durations of the steps that were completed and not skipped. -/
def completedDuration (rows : List Row) : Int :=
  ((rows.filter fun r => !Row.skipped r && !Row.running r).map fun r => r.duration.toInt).sum

/-- The durations that the steps have that are running and not skipped. -/
def runningDuration (rows : List Row) : Int :=
  ((rows.filter fun r => !Row.skipped r && Row.running r).map fun r => r.duration.toInt).sum

/-- No end step has been completed. -/
def Unfinished (rows : List Row) : Prop := ∀ r ∈ rows, r.name = "end".toList → Row.running r = true

/-- What the rows of an unfinished invocation are like if the sum is shown for it. -/
def Settled (rows : List Row) : Prop :=
  match rows.find? fun r => r.name = "end".toList with
  | some final => final.duration.toInt = completedDuration rows
  | none => (llongMin ≤ completedDuration rows ∧ completedDuration rows ≤ llongMax) ∧
    (2^64 : Int) ∣ runningDuration rows

theorem sum_cons_ite (p : Row → Bool) (r : Row) (rows : List Row) :
    (((r :: rows).filter p).map fun r => r.duration.toInt).sum =
      (if p r then r.duration.toInt else 0)+((rows.filter p).map fun r => r.duration.toInt).sum := by
  rw [List.filter_cons]
  split <;> simp

/-- Where there is no end step, all durations but those of skipped steps are added up. -/
theorem accumulated_toInt : ∀ {rows : List Row}, (∀ r ∈ rows, r.name ≠ "end".toList) →
    (accumulated rows).toInt = (completedDuration rows+runningDuration rows).bmod (2^64)
  | [],_ => rfl
  | r :: rows,open_ended => by
    have other := open_ended r (by simp)
    have ih := accumulated_toInt fun r' member => open_ended r' (List.mem_cons_of_mem r member)
    have step : accumulated (r :: rows) = (if Row.skipped r then 0 else r.duration)+accumulated rows := by
      simp only [accumulated,List.map_cons,List.sum_cons,Row.counted,other,or_false]
    have split : completedDuration (r :: rows)+runningDuration (r :: rows) =
        (if Row.skipped r then 0 else r.duration.toInt)+(completedDuration rows+runningDuration rows) := by
      rw [completedDuration,runningDuration,sum_cons_ite,sum_cons_ite,completedDuration,runningDuration]
      cases Row.skipped r <;> cases Row.running r <;> simp <;> omega
    rw [step,split,Int64.toInt_add,ih,Int.add_bmod_bmod]
    cases Row.skipped r <;> rfl

/-- The sum is shown exactly if the rows are settled. -/
theorem statsDuration_settled (columns : List Str) (rows : List Row) {mode : Mode} (sequential : mode ≠ .robsdRegress) :
    (statsDuration ⟨columns,rows.map Row.toStep⟩ mode).1.toInt = completedDuration rows ↔ Settled rows := by
  simp only [statsDuration,Settled,stepsFindByName_rows]
  cases found : rows.find? fun r => r.name = "end".toList with
  | some final => rfl
  | none =>
    have open_ended : ∀ r ∈ rows, r.name ≠ "end".toList := by
      intro r member
      simpa using List.find?_eq_none.mp found r member
    simp only [Option.map_none]
    rw [stepsTotalDuration_rows rfl,if_neg sequential,accumulated_toInt open_ended]
    generalize completedDuration rows = completed
    generalize runningDuration rows = running
    unfold llongMin llongMax
    constructor
    · intro same
      have low := Int.le_bmod (x := completed+running) (m := 2^64) (by decide)
      have high := Int.bmod_lt (x := completed+running) (m := 2^64) (by decide)
      have congruent : (2^64 : Int) ∣ (completed+running)-(completed+running).bmod (2^64) := Int.dvd_self_sub_bmod
      rw [same] at low high congruent
      refine ⟨⟨by omega,by omega⟩,?_⟩
      simpa using congruent
    · rintro ⟨⟨low,high⟩,k,multiple⟩
      have cancel : (completed+2^64*k).bmod (2^64) = completed.bmod (2^64) :=
        Int.add_mul_bmod_self_left completed (2^64) k
      rw [multiple,cancel]
      exact Int.bmod_eq_of_le (by omega) (by omega)

/-- Durations and differences are written faithfully exactly if they fit, and the sum
    of what was completed is shown exactly if nothing that is running changes it. -/
theorem durations_iff (duration delta deltaThreshold : Int64) (columns : List Str) (rows : List Row) (mode : Mode) :
    (Clock (formatDuration duration) duration.toInt ↔ Fits duration.toInt) ∧
    (Faithful (formatDurationAndDelta duration delta deltaThreshold) duration.toInt delta.toInt deltaThreshold.toInt ↔
      Fits duration.toInt ∧ (deltaThreshold.toInt < delta.toInt.natAbs → delta ≠ 0 ∧ Fits delta.toInt.natAbs)) ∧
    (mode ≠ .robsdRegress → Unfinished rows →
      ((statsDuration ⟨columns,rows.map Row.toStep⟩ mode).1.toInt = completedDuration rows ↔ Settled rows)) :=
  ⟨formatDuration_clock duration,formatDurationAndDelta_faithful duration delta deltaThreshold,
    fun sequential _ => statsDuration_settled columns rows sequential⟩

/-- A completed step of ten seconds and one that is running. -/
def interrupted : List Row :=
  [⟨1,['e','n','v'],0,10,0,[],['r','o','o','t'],1666666666,0⟩,
    ⟨2,['c','v','s'],-1,-1,0,[],['r','o','o','t'],1666666676,0⟩]

/-- A running step lasts `00:00:-1` and takes a second off the sum. -/
theorem durations_interrupted :
    (formatDuration (-1) = ['0','0',':','0','0',':','-','1'] ∧ ¬ Clock (formatDuration (-1)) (-1 : Int64).toInt) ∧
    Unfinished interrupted ∧ completedDuration interrupted = 10 ∧
      (statsDuration ⟨StepReading.columns,interrupted.map Row.toStep⟩ .robsd).1 = 9 := by
  refine ⟨⟨by decide,?_⟩,by unfold Unfinished; decide,by decide,by decide⟩
  rw [formatDuration_clock]
  decide

end Robsd.Durations
