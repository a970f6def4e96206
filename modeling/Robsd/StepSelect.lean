import Mathlib.Data.List.Dedup
import Mathlib.Data.List.Induction
import Robsd.StepMap
import Robsd.StepShell

/-!
Which step `-i` selects. A write goes to the step with the number given; a read
takes the step at that place of the file. The two agree only where the numbers
leave no gap.
-/
namespace Robsd.StepSelect
open Robsd.Strings
open Robsd.Decimal (decimal)
open Robsd.Interpolate (interpolateFile reading)
open Robsd.Sorting (Qsort)
open Robsd.Steps
open Robsd.StepCommand
open Robsd.StepFormat
open Robsd.StepMap
open Robsd.StepReadback (one)
open Robsd.StepShell (decimalArg parseId_decimal stepsFindById_rows)

/-! ## The property -/

/-- What `-R -i` is documented to print: the template filled in from the step with
    the number given. -/
def printById (file : Str) (id : Int) (stdin : Str) : Except Unit Str :=
  match stepsParse file with
  | .error _ => .error ()
  | .ok sf =>
    match stepsFindById sf.steps id with
    | none => .error ()
    | some st =>
      match (interpolateFile (reading (stepInterpolateLookup st)) false stdin 0 ()).1 with
      | .error _ => .error ()
      | .ok out => .ok out

/-- Reading by a number prints what is documented, whatever the template. -/
def Selects (file : Str) (id : Int) : Prop :=
  ∀ stdin, (robsdStepRead file [.i (decimalArg id)] [] stdin).toOption = (printById file id stdin).toOption

/-- The numbers given to a sequence of writes. -/
def ids (invs : List Invocation) : List Int := invs.filterMap fun inv => (parseId inv.id.str).toOption

/-! ## Ascending numbers -/

section
variable {low : Int} {l : List Int}

theorem ascending_lower (ascending : l.Pairwise (· < ·)) (above : ∀ x ∈ l, low < x) {n : Nat} {x : Int}
    (at_ : l[n]? = some x) :
    low+n+1 ≤ x := by
  induction l generalizing low n with
  | nil => simp at at_
  | cons a l ih =>
    obtain ⟨least,rest⟩ := List.pairwise_cons.mp ascending
    have first := above a (by simp)
    cases n with
    | zero =>
      cases at_
      omega
    | succ n =>
      have := ih rest least at_
      push_cast
      omega

/-- The number at a place is the one of that place exactly when none below it is missing. -/
theorem ascending_place (ascending : l.Pairwise (· < ·)) (above : ∀ x ∈ l, low < x) (n : Nat) :
    l[n]? = some (low+n+1) ↔ ∀ k, low < k → k ≤ low+n+1 → k ∈ l := by
  induction l generalizing low n with
  | nil =>
    simp only [List.getElem?_nil,reduceCtorEq,List.not_mem_nil,imp_false,false_iff]
    intro none
    exact none (low+1) (by omega) (by omega)
  | cons a l ih =>
    obtain ⟨least,rest⟩ := List.pairwise_cons.mp ascending
    have first := above a (by simp)
    by_cases next : a = low+1
    · subst next
      cases n with
      | zero =>
        have here : ((low+1) :: l)[0]? = some (low+(0 : Nat)+1) := by simp
        exact ⟨fun _ k lower upper => List.mem_cons.mpr (.inl (by omega)),fun _ => here⟩
      | succ n =>
        have later := ih rest least n
        rw [List.getElem?_cons_succ,show low+((n+1 : Nat) : Int)+1 = low+1+n+1 by push_cast; omega,later]
        constructor
        · intro all k lower upper
          by_cases here : k = low+1
          · simp [here]
          · exact List.mem_cons_of_mem _ (all k (by omega) upper)
        · intro all k lower upper
          rcases List.mem_cons.mp (all k (by omega) upper) with same | member
          · omega
          · exact member
    · have gap : low+1 ∉ a :: l := by
        intro member
        rcases List.mem_cons.mp member with same | later
        · exact next same.symm
        · have := least _ later
          omega
      constructor
      · intro at_
        cases n with
        | zero =>
          simp only [List.getElem?_cons_zero,Option.some.injEq] at at_
          omega
        | succ n =>
          have := ascending_lower rest least (n := n) at_
          push_cast at this
          omega
      · intro all
        exact absurd (all (low+1) (by omega) (by omega)) gap

/-- There are no more numbers than there is room for. -/
theorem ascending_length (ascending : l.Pairwise (· < ·)) (above : ∀ x ∈ l, low < x) {high : Int}
    (below : ∀ x ∈ l, x ≤ high) (room : low ≤ high) :
    low+l.length ≤ high := by
  cases last : l.length with
  | zero => simpa using room
  | succ n =>
    have within : n < l.length := by omega
    have lower := ascending_lower ascending above (List.getElem?_eq_getElem within)
    have upper := below _ (List.getElem_mem within)
    push_cast
    omega

end

/-! ## The file after a sequence of writes -/

theorem run_append (invs : List Invocation) (inv : Invocation) : (Store.run (invs ++ [inv])).1 =
      (Store.run invs).1 ++ [((Store.run invs).2.apply inv).1] ∧
    (Store.run (invs ++ [inv])).2 = ((Store.run invs).2.apply inv).2 := by
  simp [Store.run,List.foldl_append]

/-- After successful writes there is a row for each number given. -/
theorem run_ids {invs : List Invocation} (success : ∀ code ∈ (Store.run invs).1, code = 0) (id : Int) :
    (Store.run invs).2 id ≠ none ↔ id ∈ ids invs := by
  induction invs using List.reverseRecOn with
  | nil => simp [Store.run,ids]
  | append_singleton invs inv ih =>
    obtain ⟨codes,store⟩ := run_append invs inv
    rw [codes] at success
    have before := ih fun code member => success code (by simp [member])
    obtain ⟨n,g,e,identified,_,_,_,after⟩ := (@Store.apply_succeeds (Store.run invs).2 inv) (success _ (by simp))
    have given : ids (invs ++ [inv]) = ids invs ++ [n] := by simp [ids,identified,Except.toOption]
    rw [store,after,given,List.mem_append,List.mem_singleton,← before]
    by_cases same : id = n
    · subst same
      simp
    · simp [same]

theorem ids_bounds {invs : List Invocation} {id : Int} (member : id ∈ ids invs) : id ≤ intMax := by
  obtain ⟨inv,_,identified⟩ := List.mem_filterMap.mp member
  unfold parseId at identified
  split at identified
  · next n accepted =>
    have same : n = id := by simpa [Except.toOption] using identified
    subst same
    exact (Decimal.strtonum_bounds accepted).2
  · simp [Except.toOption] at identified

/-! ## What is printed -/

/-- The output for a template on the standard input. -/
def printed (st : Step) (stdin : Str) : Option Str :=
  (interpolateFile (reading (stepInterpolateLookup st)) false stdin 0 ()).1.toOption

theorem printed_empty (st : Step) : printed st [] = some [] := by
  unfold printed
  rw [interpolateFile]
  rfl

/-- The template that asks for the number. -/
def numberTemplate : Str := reference "step".toList ++ ['\n']

theorem printed_number (r : Row) : printed r.toStep numberTemplate = some (decimal r.id ++ ['\n']) := by
  have template : reference "step".toList = [] ++ '$' :: '{' :: ((definition .step).name ++ '}' :: []) := rfl
  have expands : Interpolate.Expands (stepInterpolateLookup r.toStep) 4 (reference "step".toList) (decimal r.id) := by
    rw [template,Interpolate.expands_reference_iff (by simp) (name_no_brace .step) (name_ne_nil .step)]
    exact ⟨_,decimal r.id,[],lookup_toStep r .step,.plain (plain_decimal _),.plain (by simp),by simp⟩
  have single : '\n' ∉ reference "step".toList ∧ nul ∉ reference "step".toList := by decide
  have lines := Interpolate.interpolateFile_lines (stepInterpolateLookup r.toStep)
    [(reference "step".toList,decimal r.id)] 0
    (fun l member => by rw [List.mem_singleton.mp member]; exact ⟨single.1,single.2,expands⟩)
  simp only [List.flatMap_cons,List.flatMap_nil,List.append_nil] at lines
  rw [printed,numberTemplate,lines]
  rfl

section
variable {file : Str} {sf : StepFile} {rows : List Row} (parsed : stepsParse file = .ok sf)
  (shape : sf.steps = rows.map Row.toStep)
include parsed shape

theorem printById_rows (id : Int) (stdin : Str) :
    (printById file id stdin).toOption = (rows.find? (·.id = id)).bind fun r => printed r.toStep stdin := by
  have found : stepsFindById sf.steps id = (rows.find? (·.id = id)).map Row.toStep := by rw [shape,stepsFindById_rows]
  simp only [printById,parsed,found]
  cases rows.find? (·.id = id) with
  | none => rfl
  | some r =>
    simp only [Option.map_some,Option.bind_some,printed]
    cases (interpolateFile (reading (stepInterpolateLookup r.toStep)) false stdin 0 ()).1 <;> rfl

theorem robsdStepRead_rows {id : Int} (positive : 0 < id) (high : id ≤ intMax) (stdin : Str) :
    (robsdStepRead file [.i (decimalArg id)] [] stdin).toOption =
      (rows[(id-1).toNat]?).bind fun r => printed r.toStep stdin := by
  have options := StepShell.offset_options (n := id) (by simp only [intMax]; omega) high
  simp only [StepShell.Selector.options] at options
  simp only [robsdStepRead,parsed,stepsRead,options,ne_eq,not_true_eq_false,↓reduceIte,Option.isSome_none,
    Bool.false_eq_true,false_and]
  simp only [stepsGet,if_pos positive,shape,List.getElem?_map]
  cases rows[(id-1).toNat]? with
  | none => rfl
  | some r =>
    simp only [Option.map_some,Option.elim_some,Option.bind_some,printed]
    cases (interpolateFile (reading (stepInterpolateLookup r.toStep)) false stdin 0 ()).1 <;> rfl

omit shape in
/-- Numbers beyond the range of `int` are refused. -/
theorem robsdStepRead_beyond {id : Int} (beyond : intMax < id) (stdin : Str) :
    (robsdStepRead file [.i (decimalArg id)] [] stdin).toOption = none := by
  have refused : ∃ e, parseId (decimal id) = .error e := by
    cases identified : parseId (decimal id) with
    | error e => exact ⟨e,rfl⟩
    | ok n =>
      unfold parseId at identified
      split at identified
      · next accepted =>
        have same := Decimal.strtonum_decimal_ok accepted
        have := (Decimal.strtonum_bounds accepted).2
        omega
      · cases identified
  obtain ⟨e,refused⟩ := refused
  simp [robsdStepRead,parsed,stepsRead,readOptions,decimalArg,refused,Except.bind,Except.toOption]

/-- Two outputs that agree on every template are of the same row. -/
theorem selects_rows (ordered : rows.Pairwise fun r r' => r.id < r'.id) {id : Int} (positive : 0 < id)
    (high : id ≤ intMax) :
    Selects file id ↔ (rows[(id-1).toNat]?).map Row.id = (rows.find? (·.id = id)).map Row.id := by
  simp only [Selects,robsdStepRead_rows parsed shape positive high,printById_rows parsed shape]
  constructor
  · intro same
    have empty := same []
    have number := same numberTemplate
    cases place : rows[(id-1).toNat]? with
    | none =>
      cases found : rows.find? (·.id = id) with
      | none => rfl
      | some r =>
        rw [place,found] at empty
        simp [printed_empty] at empty
    | some r =>
      cases found : rows.find? (·.id = id) with
      | none =>
        rw [place,found] at empty
        simp [printed_empty] at empty
      | some r' =>
        rw [place,found] at number
        simp only [Option.bind_some,printed_number,Option.some.injEq,List.append_cancel_right_eq] at number
        simp only [Option.map_some,Decimal.decimal_injective number]
  · intro same stdin
    cases place : rows[(id-1).toNat]? with
    | none =>
      rw [place] at same
      rw [Option.map_eq_none_iff.mp same.symm]
    | some r =>
      rw [place] at same
      obtain ⟨r',found,equal⟩ := Option.map_eq_some_iff.mp same.symm
      rw [found]
      -- Two rows with one number are the same row.
      have unique : r' = r := by
        obtain ⟨i,within,here⟩ := List.getElem_of_mem (List.mem_of_find?_eq_some found)
        obtain ⟨within',there⟩ := List.getElem?_eq_some_iff.mp place
        rcases Nat.lt_trichotomy i (id-1).toNat with less | equal_ | greater
        · have := List.pairwise_iff_getElem.mp ordered _ _ within within' less
          rw [here,there] at this
          omega
        · subst equal_
          rw [← here,← there]
        · have := List.pairwise_iff_getElem.mp ordered _ _ within' within greater
          rw [here,there] at this
          omega
      rw [unique]

end

/-! ## Reading what was written -/

/-- After any sequence of successful writes to positive numbers, reading a number
    selects the row with it, or fails for want of one, exactly when no number up
    to it is missing, or it is beyond the number of rows and missing itself. -/
theorem selects_iff (q : Qsort Step.id) {invs : List Invocation} (success : ∀ code ∈ (run q invs).1, code = 0)
    (positive : ∀ id ∈ ids invs, 0 < id) {id : Int} (asked : 0 < id) :
    Selects (run q invs).2 id ↔
      (∀ k, 0 < k → k ≤ id → k ∈ ids invs) ∨ id ∉ ids invs ∧ ((ids invs).dedup.length : Int) < id := by
  obtain ⟨codes,sf,rows,parsed,shape,represents⟩ := runs_refine q invs
  rw [codes] at success
  have listed : ∀ k, k ∈ rows.map Row.id ↔ k ∈ ids invs := by
    intro k
    rw [← run_ids success k,List.mem_map,Option.ne_none_iff_exists']
    constructor
    · rintro ⟨r,member,rfl⟩
      exact ⟨_,(represents.entries _ _).mpr ⟨r,member,rfl,rfl⟩⟩
    · rintro ⟨e,entry⟩
      obtain ⟨r,member,numbered,_⟩ := (represents.entries k e).mp entry
      exact ⟨r,member,numbered⟩
  have ascending : (rows.map Row.id).Pairwise (· < ·) := List.pairwise_map.mpr represents.ordered
  have above : ∀ k ∈ rows.map Row.id, 0 < k := fun k member => positive k ((listed k).mp member)
  have count : (ids invs).dedup.length = rows.length := by
    have perm : (ids invs).dedup.Perm (rows.map Row.id) :=
      (List.perm_ext_iff_of_nodup (List.nodup_dedup _) (ascending.imp fun lt => ne_of_lt lt)).mpr
        fun k => by rw [List.mem_dedup,listed]
    rw [perm.length_eq,List.length_map]
  rw [count]
  by_cases high : id ≤ intMax
  · obtain ⟨n,rfl⟩ : ∃ n : Nat, id = 0+n+1 := ⟨(id-1).toNat,by omega⟩
    rw [selects_rows parsed shape represents.ordered asked high,← List.getElem?_map,
      show (0+(n : Int)+1-1).toNat = n by omega]
    have place := ascending_place ascending above n
    have found : (rows.find? (·.id = 0+(n : Int)+1)).map Row.id = if 0+(n : Int)+1 ∈ ids invs
      then some (0+(n : Int)+1) else none := by
      cases first : rows.find? (·.id = 0+(n : Int)+1) with
      | none =>
        rw [if_neg]
        · rfl
        · rw [← listed,List.mem_map]
          rintro ⟨r,member,numbered⟩
          exact absurd numbered (by simpa using List.find?_eq_none.mp first r member)
      | some r =>
        have numbered : r.id = 0+(n : Int)+1 := by simpa using List.find?_some first
        rw [if_pos ((listed _).mp (List.mem_map.mpr ⟨r,List.mem_of_find?_eq_some first,numbered⟩)),← numbered]
        rfl
    rw [found]
    simp only [listed] at place
    by_cases member : 0+(n : Int)+1 ∈ ids invs
    · rw [if_pos member,place]
      exact ⟨.inl,fun either => either.resolve_right fun ⟨missing,_⟩ => missing member⟩
    · rw [if_neg member,List.getElem?_eq_none_iff,List.length_map]
      constructor
      · intro beyond
        exact .inr ⟨member,by omega⟩
      · rintro (all | ⟨_,beyond⟩)
        · exact absurd (all _ asked (Int.le_refl _)) member
        · omega
  · -- Such a number was never written, and there are fewer rows.
    have missing : id ∉ ids invs := fun member => high (ids_bounds member)
    have few := ascending_length ascending above (fun k member => ids_bounds ((listed k).mp member)) (by decide)
    rw [List.length_map] at few
    have absent : rows.find? (·.id = id) = none := by
      rw [List.find?_eq_none]
      intro r member same
      exact missing ((listed id).mp (List.mem_map.mpr ⟨r,member,by simpa using same⟩))
    constructor
    · intro _
      exact .inr ⟨missing,by omega⟩
    · intro _ stdin
      rw [robsdStepRead_beyond parsed (by omega),printById_rows parsed shape,absent]
      rfl

/-- A write that sets the fields without a default. -/
def sampleWrite (id : Str) (noNul : nul ∉ id) : Invocation :=
  ⟨⟨id,noNul⟩,[⟨.name,"a".toList,by decide,by decide,by decide⟩,⟨.exit,"0".toList,by decide,by decide,by decide⟩,
    ⟨.duration,one.str,one.noNul,by decide,by decide⟩,⟨.user,"u".toList,by decide,by decide,by decide⟩,
    ⟨.time,one.str,one.noNul,by decide,by decide⟩]⟩

def sampleWrites : List Invocation := [sampleWrite ['1'] (by decide),sampleWrite ['2'] (by decide)]

theorem selects_iff_sample : Selects (run (Sorting.insertion Step.id) sampleWrites).2 2 ↔
    (∀ k, 0 < k → k ≤ 2 → k ∈ ids sampleWrites) ∨ 2 ∉ ids sampleWrites ∧ ((ids sampleWrites).dedup.length : Int) < 2 :=
  selects_iff (Sorting.insertion Step.id) (by decide +kernel) (by decide) (by decide)

/-- After one write to number 2, reading 2 fails and reading 1 prints the row 2. -/
theorem not_selected : ¬ ∀ (q : Qsort Step.id) (invs : List Invocation), (∀ code ∈ (run q invs).1, code = 0) →
    (∀ id ∈ ids invs, 0 < id) → ∀ id : Int, 0 < id → Selects (run q invs).2 id := by
  intro all
  have selects := all (Sorting.insertion Step.id) [sampleWrite ['2'] (by decide)] (by decide +kernel)
    (by decide) 2 (by decide)
  exact absurd (selects numberTemplate) (by decide +kernel)

end Robsd.StepSelect
