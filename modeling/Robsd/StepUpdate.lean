import Robsd.StepCommand
import Robsd.StepReading

/-!
What a write does to the rows of the step file: the arguments amount to the last
value given for each field, one row takes these values, and all others stay.
-/
namespace Robsd.StepUpdate
open Robsd.Strings
open Robsd.Steps
open Robsd.StepCommand
open Robsd.StepFormat
open Robsd.StepReading
open Robsd.Sorting (Qsort)

/-! ## Arguments -/

/-- The value an argument gives to a field. -/
def valueFor (f : Field) (kv : Str) : Option Str :=
  match strchr '=' kv with
  | some (key,val) => if key = (definition f).name then some val else none
  | none => none

/-- The last value given for a field. -/
def lastGiven (f : Field) : List Arg → Option Str
  | [] => none
  | kv :: kvs => (lastGiven f kvs).or (valueFor f kv.str)

theorem definition_name_injective {f g : Field} (same : (definition f).name = (definition g).name) : f = g := by
  have found := find_definition f
  rw [same,find_definition] at found
  have index := congrArg FieldDefinition.index (Option.some.inj found)
  simpa using index.symm

/-- An argument is accepted when its key names a field and its value is one of
    the type of that field. -/
theorem stepSetKeyval_ok_iff {st st' : Step} {kv : Str} :
    stepSetKeyval st kv = .ok st' ↔ ∃ f val v, strchr '=' kv = some ((definition f).name,val) ∧
      fieldValue (definition f).type val = .ok v ∧ st' = ⟨Function.update st.fields f v⟩ := by
  unfold stepSetKeyval
  cases split : strchr '=' kv with
  | none => simp
  | some pair =>
    obtain ⟨key,val⟩ := pair
    cases found : fieldDefinitionFindByName key with
    | none =>
      have unknown : ∀ f, key ≠ (definition f).name := fun f same => by rw [same,find_definition] at found; cases found
      simp only [stepSetField,found,reduceCtorEq,Option.some.injEq,Prod.mk.injEq,false_iff]
      rintro ⟨f,_,_,⟨same,_⟩,_⟩
      exact unknown f same
    | some fd =>
      obtain ⟨f,rfl,rfl⟩ := find_some found
      simp only [stepSetField_definition,Option.some.injEq,Prod.mk.injEq]
      cases valued : fieldValue (definition f).type val with
      | error e =>
        constructor
        · intro impossible
          cases e <;> cases impossible
        · rintro ⟨g,val',v,⟨same,rfl⟩,accepted,_⟩
          rw [← definition_name_injective same,valued] at accepted
          cases accepted
      | ok v =>
        constructor
        · intro done
          exact ⟨f,val,v,⟨rfl,rfl⟩,valued,(Except.ok.inj done).symm⟩
        · rintro ⟨g,val',v',⟨same,rfl⟩,accepted,rfl⟩
          obtain rfl := definition_name_injective same
          rw [valued] at accepted
          cases accepted
          rfl

/-- The value the arguments leave in a field, if they give one. -/
def given (f : Field) (kvs : List Arg) : Option StepField :=
  (lastGiven f kvs).bind fun val => (fieldValue (definition f).type val).toOption

/-- Accepted arguments set each field to the last value given for it. -/
theorem setKeyvals_fields {kvs : List Arg} {st st' : Step} (run : setKeyvals kvs st = .ok st') :
    st' = ⟨fun f => (given f kvs).getD (st.fields f)⟩ ∧
      ∀ f val, lastGiven f kvs = some val → ∃ v, fieldValue (definition f).type val = .ok v := by
  induction kvs generalizing st with
  | nil =>
    cases run
    exact ⟨rfl,nofun⟩
  | cons kv kvs ih =>
    simp only [setKeyvals] at run
    cases set : stepSetKeyval st kv.str with
    | error e => rw [set] at run; cases run
    | ok st₁ =>
      rw [set] at run
      obtain ⟨f,val,v,split,valued,rfl⟩ := stepSetKeyval_ok_iff.mp set
      obtain ⟨shape,accepted⟩ := ih run
      have here : ∀ g, valueFor g kv.str = if g = f then some val else none := by
        intro g
        by_cases same : g = f
        · simp [valueFor,split,same]
        · have : (definition f).name ≠ (definition g).name := fun equal => same (definition_name_injective equal).symm
          simp [valueFor,split,same,this]
      constructor
      · rw [shape]
        congr 1
        funext g
        simp only [given,lastGiven,here]
        cases later : lastGiven g kvs with
        | some val' =>
          obtain ⟨v',valued'⟩ := accepted g val' later
          simp [valued',Except.toOption]
        | none =>
          by_cases same : g = f
          · subst same
            simp [valued,Except.toOption]
          · simp [same]
      · intro g val' last
        simp only [lastGiven,here] at last
        cases later : lastGiven g kvs with
        | some _ => exact accepted g val' (by rw [later] at last ⊢; exact last)
        | none =>
          by_cases same : g = f
          · subst same
            simp only [later,↓reduceIte,Option.none_or,Option.some.injEq] at last
            exact ⟨v,last ▸ valued⟩
          · simp [later,same] at last

theorem given_some {f : Field} {kvs : List Arg} {v : StepField} :
    given f kvs = some v ↔ ∃ val, lastGiven f kvs = some val ∧ fieldValue (definition f).type val = .ok v := by
  simp only [given,Option.bind_eq_some_iff]
  refine exists_congr fun val => and_congr_right ?_
  intro _
  cases fieldValue (definition f).type val <;> simp [Except.toOption]

theorem given_set {f : Field} {kvs : List Arg} {v : StepField} (value : given f kvs = some v) :
    Typed f v ∧ v ≠ .unknown := by
  obtain ⟨val,_,valued⟩ := given_some.mp value
  unfold fieldValue at valued
  split at valued
  · next type =>
    cases valued
    exact ⟨type,nofun⟩
  · next type =>
    split at valued
    · cases valued
      exact ⟨type,nofun⟩
    · cases valued

/-! ## Rows -/

/-- A row with the values the arguments give. -/
def override (kvs : List Arg) (r : Row) : Row := Row.ofStep ⟨fun f => (given f kvs).getD (r.toStep.fields f)⟩

/-- What a row is made from where there is none yet. -/
def fresh (id : Int) : Row := ⟨Int64.ofInt id,[],0,0,0,[],[],0,0⟩

theorem toStep_set (r : Row) (f : Field) : r.toStep.fields f ≠ .unknown := by
  cases f <;> simp [Row.toStep]

theorem override_toStep (kvs : List Arg) (r : Row) :
    (override kvs r).toStep = ⟨fun f => (given f kvs).getD (r.toStep.fields f)⟩ := by
  have kept : ∀ f, Typed f ((given f kvs).getD (r.toStep.fields f)) ∧
      (given f kvs).getD (r.toStep.fields f) ≠ .unknown := by
    intro f
    cases value : given f kvs with
    | none => exact ⟨toStep_typed r f,toStep_set r f⟩
    | some v => exact given_set value
  exact row_of_typed (fun f => (kept f).1) fun f => (kept f).2

/-- The rows after a write. -/
def merge (id : Int) (kvs : List Arg) : List Row → List Row
  | [] => [override kvs (fresh id)]
  | r :: rows => if r.id = id then override kvs r :: rows else r :: merge id kvs rows

/-- The row that is written. -/
def target (id : Int) (rows : List Row) : Row := (rows.find? (·.id = id)).getD (fresh id)

/-- The rows that are left alone. -/
def others (id : Int) (rows : List Row) : List Row := rows.eraseP (·.id = id)

theorem merge_perm (id : Int) (kvs : List Arg) (rows : List Row) :
    (merge id kvs rows).Perm (override kvs (target id rows) :: others id rows) := by
  induction rows with
  | nil => exact .refl _
  | cons r rows ih =>
    by_cases same : r.id = id
    · simp [merge,target,others,same]
    · simp only [merge,target,others,same,↓reduceIte,decide_false,Bool.false_eq_true,not_false_eq_true,
        List.find?_cons_of_neg,List.eraseP_cons_of_neg]
      exact (ih.cons r).trans (.swap _ _ _)

theorem stepAlloc_eq (id : Int) :
    stepAlloc id = .ok ⟨Function.update initial.fields .step (.integer (Int64.ofInt id))⟩ := by
  simp only [stepAlloc,stepInit_eq,Except.bind]
  rfl

theorem matches_row (id : Int) (r : Row) :
    (!stepFieldIsEmpty (r.toStep.fields .step) && decide (r.toStep.id = id)) = decide (r.id = id) := rfl

/-- The first row with the number is changed where it stands. -/
theorem update_found {id : Int} (kvs : List Arg) {rows : List Row} {r : Row} (found : rows.find? (·.id = id) = some r) :
    ∃ before after, others id rows = before ++ after ∧ update id kvs (rows.map Row.toStep) =
      (setKeyvals kvs r.toStep).map fun st => before.map Row.toStep ++ st :: after.map Row.toStep := by
  induction rows with
  | nil => cases found
  | cons s rows ih =>
    by_cases same : s.id = id
    · rw [List.find?_cons_of_pos (by simpa using same)] at found
      cases found
      refine ⟨[],rows,by simp [others,same],?_⟩
      simp only [List.map_cons,update,matches_row,same,decide_true,↓reduceIte,List.map_nil,List.nil_append]
    · rw [List.find?_cons_of_neg (by simpa using same)] at found
      obtain ⟨before,after,rest,run⟩ := ih found
      refine ⟨s :: before,after,?_,?_⟩
      · simpa [others,same] using rest
      · simp only [List.map_cons,update,matches_row,same,decide_false,Bool.false_eq_true,↓reduceIte,run]
        cases setKeyvals kvs r.toStep <;> rfl

/-- A new step is added at the end. -/
theorem update_new {id : Int} (kvs : List Arg) {rows : List Row} (absent : rows.find? (·.id = id) = none) :
    update id kvs (rows.map Row.toStep) =
      ((stepAlloc id).bind (setKeyvals kvs)).map fun st => rows.map Row.toStep ++ [st] := by
  induction rows with
  | nil => rfl
  | cons s rows ih =>
    have different : s.id ≠ id := by simpa using List.find?_eq_none.mp absent s (by simp)
    rw [List.find?_cons_of_neg (by simpa using different)] at absent
    simp only [List.map_cons,update,matches_row,different,decide_false,Bool.false_eq_true,↓reduceIte,ih absent]
    cases (stepAlloc id).bind (setKeyvals kvs) <;> rfl

/-- An accepted write whose steps are all complete changes the rows as `merge` says. -/
theorem update_merge {id : Int} {kvs : List Arg} {rows : List Row} {steps : List Step}
    (updated : update id kvs (rows.map Row.toStep) = .ok steps) (set : ∀ st ∈ steps, ∀ f, st.fields f ≠ .unknown) :
    steps = (merge id kvs rows).map Row.toStep := by
  induction rows generalizing steps with
  | nil =>
    simp only [List.map_nil,update,stepAlloc_eq,Except.bind] at updated
    cases run : setKeyvals kvs ⟨Function.update initial.fields .step (.integer (Int64.ofInt id))⟩ with
    | error e => rw [run] at updated; cases updated
    | ok st =>
      rw [run] at updated
      cases updated
      obtain ⟨rfl,_⟩ := setKeyvals_fields run
      have required := set _ (List.mem_singleton_self _)
      simp only at required
      simp only [merge,List.map_cons,List.map_nil,override_toStep]
      congr 2
      funext f
      have here := required f
      cases value : given f kvs with
      | some v => rfl
      | none =>
        rw [value] at here
        cases f <;> first | rfl | exact absurd rfl here
  | cons r rows ih =>
    simp only [List.map_cons,update,matches_row] at updated
    by_cases same : r.id = id
    · simp only [same,decide_true,↓reduceIte] at updated
      cases run : setKeyvals kvs r.toStep with
      | error e => rw [run] at updated; cases updated
      | ok st =>
        rw [run] at updated
        cases updated
        obtain ⟨rfl,_⟩ := setKeyvals_fields run
        simp [merge,same,override_toStep]
    · simp only [same,decide_false,Bool.false_eq_true,↓reduceIte] at updated
      cases later : update id kvs (rows.map Row.toStep) with
      | error e => rw [later] at updated; cases updated
      | ok steps' =>
        rw [later] at updated
        cases updated
        simp [merge,same,ih later fun st member => set st (by simp [member])]

/-- What a successful write leaves: the rows after the write in some order, each
    replaced by what it expands to. -/
theorem written_rows {q : Qsort Step.id} {id : Int} {kvs : List Arg} {rows : List Row} {steps : List Step} {out : Str}
    (updated : update id kvs (rows.map Row.toStep) = .ok steps) (written : stepsWrite q steps = .ok out) :
    ∃ sorted outs : List Row, q.sort ((merge id kvs rows).map Row.toStep) = sorted.map Row.toStep ∧
      sorted.Perm (merge id kvs rows) ∧ List.Forall₂ Expanded sorted outs ∧ out = file outs := by
  obtain rfl := update_merge updated (stepsWrite_set written)
  obtain ⟨sorted,order,perm⟩ := sort_rows q (merge id kvs rows)
  obtain ⟨outs,expanded,rfl⟩ := (stepsWrite_ok_iff q _ sorted order out).mp written
  exact ⟨sorted,outs,order,perm,expanded,rfl⟩

end Robsd.StepUpdate
