import Robsd.StepUpdate

/-!
Whether what was written can be read back. The writer accepts any text for a
string, while its meaning inside a cell is only decided by the interpolation and
by the parser; this module determines when both leave the text alone.
-/
namespace Robsd.StepReadback
open Robsd.Strings
open Robsd.Decimal (decimal strtonum strtonum_bounds)
open Robsd.Interpolate (Expands expands_chars expands_no_dollar expands_unique)
open Robsd.Sorting (Qsort insertion)
open Robsd.Steps
open Robsd.StepCommand
open Robsd.StepFormat
open Robsd.StepReading
open Robsd.StepUpdate

/-- A step holds the last value given for each field. -/
def Holds (kvs : List Arg) (st : Step) : Prop :=
  ∀ f val, lastGiven f kvs = some val → fieldValue (definition f).type val = .ok (st.fields f)

/-- The text is accepted, it has a row with the number, and any such row holds
    what was given. -/
def Readback (id : Int) (kvs : List Arg) (text : Str) : Prop :=
  ∃ sf, stepsParse text = .ok sf ∧ (∃ st ∈ sf.steps, st.id = id) ∧ ∀ st ∈ sf.steps, st.id = id → Holds kvs st

/-- What the values given and the rows there are have to satisfy: strings that
    mean themselves inside a cell, a number that stays the same, required strings
    that do not vanish, and no further row under the number with other values. -/
structure Harmless (id : Int) (kvs : List Arg) (rows : List Row) : Prop where
  plain : ∀ f val, lastGiven f kvs = some val → (definition f).type = .string → ',' ∉ val ∧ '\n' ∉ val ∧ '$' ∉ val
  numbered : ∀ val, lastGiven .step kvs = some val → strtonum val llongMin llongMax = .ok id
  filled : ∀ r ∈ override kvs (target id rows) :: others id rows, ∀ r', Expanded r r' → r'.name ≠ [] ∧ r'.user ≠ []
  agree : ∀ r ∈ others id rows, r.id = id → ∀ r', Expanded r r' → Holds kvs r'.toStep

/-! ## Rows as texts -/

theorem tidy_iff (r : Row) : r.Tidy ↔ ∀ f, Clean (r.text f) := by
  constructor
  · rintro ⟨name,log,user⟩ f
    cases f <;> first | exact clean_decimal _ | assumption
  · intro all
    exact ⟨all .name,all .log,all .user⟩

theorem expanded_text {r r' : Row} (expanded : Expanded r r') (f : Field) :
    Expands (stepInterpolateLookup r.toStep) 3 (r.text f) (r'.text f) := by
  obtain ⟨name,log,user,step,exit,duration,delta,time,skip⟩ := expanded
  have number : ∀ n : Int, Expands (stepInterpolateLookup r.toStep) 3 (decimal n) (decimal n) :=
    fun n => .plain (plain_decimal n)
  cases f <;> simp only [Row.text,step,exit,duration,delta,time,skip] <;> first | exact number _ | assumption

theorem expanded_unique {r a b : Row} (first : Expanded r a) (second : Expanded r b) : a = b := by
  have name := expands_unique first.1 second.1
  have log := expands_unique first.2.1 second.2.1
  have user := expands_unique first.2.2.1 second.2.2.1
  obtain ⟨_,_,_,step,exit,duration,delta,time,skip⟩ := first
  obtain ⟨_,_,_,step',exit',duration',delta',time',skip'⟩ := second
  cases a
  cases b
  simp_all

/-- Cells without separators expand to such cells. -/
theorem expanded_tidy {r r' : Row} (expanded : Expanded r r') (tidy : r.Tidy) : r'.Tidy := by
  rw [tidy_iff] at tidy ⊢
  intro f
  have kept : ∀ c, (∀ g, c ∉ r.text g) → c ∉ r'.text f := by
    intro c absent member
    refine expands_chars (P := (· ≠ c)) (expanded_text expanded f) ?_ ?_ c member rfl
    · rintro d inside rfl
      exact absent f inside
    · rintro name value resolves d inside rfl
      obtain ⟨g,rfl⟩ := lookup_some resolves
      exact absent g inside
  exact ⟨kept _ fun g => (tidy g).1,kept _ fun g => (tidy g).2.1,kept _ fun g => (tidy g).2.2⟩

theorem expanded_plain {r r' : Row} (expanded : Expanded r r') (f : Field) : '$' ∉ r'.text f :=
  expands_no_dollar (expanded_text expanded f)

/-- What is written contains no reference. -/
theorem file_plain {rows outs : List Row} (expanded : List.Forall₂ Expanded rows outs) : '$' ∉ file outs := by
  have commas_plain : ∀ cells : List Str, (∀ c ∈ cells, '$' ∉ c) → '$' ∉ commas cells := by
    intro cells
    induction cells with
    | nil => simp [commas]
    | cons c cells ih =>
      intro all
      have tail := ih fun d member => all d (by simp [member])
      have head := all c (by simp)
      cases cells with
      | nil => simpa [commas] using head
      | cons d cells => simp [commas,head,tail]
  have line : ∀ r r' : Row, Expanded r r' → '$' ∉ r'.line := by
    intro r r' here
    have cells : ∀ c ∈ r'.cells, '$' ∉ c := by
      rw [cells_eq]
      intro c member
      obtain ⟨f,_,rfl⟩ := List.mem_map.mp member
      exact expanded_plain here f
    simpa [Row.line] using commas_plain _ cells
  have header : '$' ∉ stepsHeader := by decide
  have body : '$' ∉ (outs.map Row.line).flatten := by
    induction expanded with
    | nil => simp
    | cons here _ ih =>
      simp only [List.map_cons,List.flatten_cons,List.mem_append,not_or]
      exact ⟨line _ _ here,ih⟩
  simp only [file,List.mem_append,not_or]
  exact ⟨header,body⟩

private theorem paired {α β : Type} {R : α → β → Prop} {xs : List α} {ys : List β} (all : List.Forall₂ R xs ys) :
    ∀ x ∈ xs, ∃ y ∈ ys, R x y := by
  induction all with
  | nil => simp
  | cons here _ ih =>
    intro x member
    rcases List.mem_cons.mp member with rfl | later
    · exact ⟨_,by simp,here⟩
    · obtain ⟨y,found,related⟩ := ih x later
      exact ⟨y,by simp [found],related⟩

/-! ## What was given -/

theorem toInt_ofInt {n : Int} (low : llongMin ≤ n) (high : n ≤ llongMax) : (Int64.ofInt n).toInt = n := by
  simp only [llongMin,llongMax] at low high
  exact Int64.toInt_ofInt_of_le (by omega) (by omega)

theorem fieldValue_integer {val : Str} {n : Int64} (valued : fieldValue .integer val = .ok (.integer n)) :
    strtonum val llongMin llongMax = .ok n.toInt := by
  unfold fieldValue at valued
  cases read : strtonum val llongMin llongMax with
  | error e => simp [read] at valued
  | ok m =>
    simp only [read,Except.ok.injEq,StepField.integer.injEq] at valued
    obtain ⟨low,high⟩ := strtonum_bounds read
    rw [← valued,toInt_ofInt low high]

/-- Text fields that hold what was given show it. -/
theorem holds_text {kvs : List Arg} {r : Row} (holds : Holds kvs r.toStep) {f : Field} {val : Str}
    (last : lastGiven f kvs = some val) (type : (definition f).type = .string) : r.text f = val := by
  have value := holds f val last
  rw [type] at value
  cases f <;> first | (cases type; done) | (cases value; rfl)

theorem override_text (kvs : List Arg) (r : Row) {f : Field} (type : (definition f).type = .string) :
    (override kvs r).text f = (lastGiven f kvs).getD (r.text f) := by
  have shape := congrArg (fun st => st.fields f) (override_toStep kvs r)
  have value : given f kvs = (lastGiven f kvs).map .string := by
    cases last : lastGiven f kvs with
    | none => simp [given,last]
    | some val => simp [given,last,type,fieldValue,Except.toOption]
  simp only [value] at shape
  cases last : lastGiven f kvs with
  | none =>
    rw [last] at shape
    cases f <;> first | (cases type; done) | exact StepField.string.inj shape
  | some val =>
    rw [last] at shape
    cases f <;> first | (cases type; done) | exact StepField.string.inj shape

/-- The row that is written holds what was given, provided that all of it was accepted. -/
theorem override_holds {kvs : List Arg}
    (accepted : ∀ f val, lastGiven f kvs = some val → ∃ v, fieldValue (definition f).type val = .ok v) (r : Row) :
    Holds kvs (override kvs r).toStep := by
  intro f val last
  obtain ⟨v,valued⟩ := accepted f val last
  have value : given f kvs = some v := given_some.mpr ⟨val,last,valued⟩
  rw [override_toStep]
  simp only [value,Option.getD_some]
  exact valued

/-- A row keeps what it holds when it is written, where the strings given
    contain no reference. -/
theorem expanded_holds {kvs : List Arg} {r r' : Row} (holds : Holds kvs r.toStep) (expanded : Expanded r r')
    (plain : ∀ f val, lastGiven f kvs = some val → (definition f).type = .string → '$' ∉ val) :
    Holds kvs r'.toStep := by
  intro f val last
  cases type : (definition f).type with
  | integer =>
    have value := holds f val last
    rw [type] at value
    rw [value]
    obtain ⟨_,_,_,step,exit,duration,delta,time,skip⟩ := expanded
    cases f <;> first | (cases type; done) | simp only [Row.toStep,step,exit,duration,delta,time,skip]
  | string =>
    have text := holds_text holds last type
    have kept := expanded_text expanded f
    rw [text] at kept
    have same : r'.text f = val := (Interpolate.expands_plain_iff (plain f val last type)).mp kept
    have value := fieldValue_text r' f
    rw [type,same] at value
    exact value

/-- The row that is written has the number asked for. -/
theorem override_id {id : Int} {kvs : List Arg} {r : Row} (numbered : r.id = id)
    (same : ∀ val, lastGiven .step kvs = some val → strtonum val llongMin llongMax = .ok id) :
    (override kvs r).id = id := by
  have shape := congrArg (fun st => st.fields .step) (override_toStep kvs r)
  cases value : given .step kvs with
  | none =>
    simp only [value,Option.getD_none] at shape
    exact (congrArg Int64.toInt (StepField.integer.inj shape)).trans numbered
  | some v =>
    obtain ⟨val,last,valued⟩ := given_some.mp value
    simp only [value,Option.getD_some] at shape
    rw [← shape] at valued
    have read := fieldValue_integer valued
    rw [same val last] at read
    exact (Except.ok.inj read).symm

theorem target_id {id : Int} (low : llongMin ≤ id) (high : id ≤ llongMax) (rows : List Row) :
    (target id rows).id = id := by
  unfold target
  cases found : rows.find? (·.id = id) with
  | none => exact toInt_ofInt low high
  | some r => simpa using List.find?_some found

theorem update_accepted {id : Int} {kvs : List Arg} {steps steps' : List Step}
    (updated : update id kvs steps = .ok steps') :
    ∀ f val, lastGiven f kvs = some val → ∃ v, fieldValue (definition f).type val = .ok v := by
  induction steps generalizing steps' with
  | nil =>
    simp only [update,stepAlloc_eq,Except.bind] at updated
    cases run : setKeyvals kvs ⟨Function.update initial.fields .step (.integer (Int64.ofInt id))⟩ with
    | error e => rw [run] at updated; cases updated
    | ok st => exact (setKeyvals_fields run).2
  | cons st steps ih =>
    unfold update at updated
    split at updated
    · cases run : setKeyvals kvs st with
      | error e => rw [run] at updated; cases updated
      | ok st' => exact (setKeyvals_fields run).2
    · cases later : update id kvs steps with
      | error e => rw [later] at updated; cases updated
      | ok steps' => exact ih later

/-! ## Both directions -/

section
variable {q : Qsort Step.id} {id : Int} {kvs : List Arg} {rows sorted outs : List Row}

/-- Rows that keep to their cells, with values that do, are written so. -/
private theorem outs_tidy (perm : sorted.Perm (merge id kvs rows)) (expanded : List.Forall₂ Expanded sorted outs)
    (tidy : ∀ r ∈ rows, r.Tidy)
    (plain : ∀ f val, lastGiven f kvs = some val → (definition f).type = .string → Clean val) :
    ∀ o ∈ outs, o.Tidy := by
  have overridden : ∀ r : Row, r.Tidy → (override kvs r).Tidy := by
    intro r here
    have texts := (tidy_iff r).mp here
    have kept : ∀ f, (definition f).type = .string → Clean ((override kvs r).text f) := by
      intro f type
      rw [override_text kvs r type]
      cases last : lastGiven f kvs with
      | none => exact texts f
      | some val => exact plain f val last type
    exact ⟨kept .name rfl,kept .log rfl,kept .user rfl⟩
  have written : (target id rows).Tidy := by
    unfold target
    cases found : rows.find? (·.id = id) with
    | none =>
      have empty : Clean [] := by decide
      exact ⟨empty,empty,empty⟩
    | some r => exact tidy r (List.mem_of_find?_eq_some found)
  intro o member
  obtain ⟨r,listed,here⟩ := paired expanded.flip o member
  apply expanded_tidy here
  rcases List.mem_cons.mp ((perm.trans (merge_perm id kvs rows)).mem_iff.mp listed) with rfl | other
  · exact overridden _ written
  · exact tidy r (List.mem_of_mem_eraseP other)

/-- What can be read back was harmless. -/
theorem harmless_of_readback (perm : sorted.Perm (merge id kvs rows)) (expanded : List.Forall₂ Expanded sorted outs)
    (readable : ∀ r ∈ rows, r.Readable) (readback : Readback id kvs (file outs)) : Harmless id kvs rows := by
  obtain ⟨sf,accepted,⟨st,listed,numbered⟩,all⟩ := readback
  have holds := all st listed numbered
  obtain ⟨parsed,shape,inside⟩ := stepsParse_rows accepted
  rw [shape] at listed
  obtain ⟨r,member,rfl⟩ := List.mem_map.mp listed
  obtain ⟨readable',name,log,user⟩ := inside r member
  have clean : ∀ f val, lastGiven f kvs = some val → (definition f).type = .string → Clean val ∧ '$' ∉ val := by
    intro f val last type
    rw [← holds_text holds last type]
    refine ⟨(tidy_iff r).mp readable'.toTidy f,fun dollar => file_plain expanded ?_⟩
    cases f <;> first | (cases type; done) | exact name _ dollar | exact log _ dollar | exact user _ dollar
  have tidy := outs_tidy perm expanded (fun r member => (readable r member).toTidy) fun f val last type =>
    (clean f val last type).1
  have filled : ∀ o ∈ outs, o.name ≠ [] ∧ o.user ≠ [] := by
    by_contra lacking
    push Not at lacking
    obtain ⟨o,member,lacking⟩ := lacking
    obtain ⟨e,failed⟩ := stepsParse_incomplete tidy ⟨o,member,fun full => absurd full.2 (not_not.mpr (lacking full.1))⟩
    rw [failed] at accepted
    cases accepted
  have back := stepsParse_file fun o member => ⟨tidy o member,(filled o member).1,(filled o member).2⟩
  rw [accepted] at back
  have steps : sf.steps = outs.map Row.toStep := congrArg StepFile.steps (Except.ok.inj back)
  have written : ∀ r ∈ override kvs (target id rows) :: others id rows, ∀ r', Expanded r r' → r' ∈ outs := by
    intro r listed r' here
    obtain ⟨o,found,same⟩ := paired expanded r ((perm.trans (merge_perm id kvs rows)).mem_iff.mpr listed)
    rwa [expanded_unique here same]
  refine ⟨?_,?_,fun r listed r' here => filled r' (written r listed r' here),
    ?_⟩
  · intro f val last type
    obtain ⟨⟨noComma,noNewline,_⟩,noDollar⟩ := clean f val last type
    exact ⟨noComma,noNewline,noDollar⟩
  · intro val last
    have read := fieldValue_integer (holds .step val last)
    rwa [show r.step.toInt = id from numbered] at read
  · intro r listed same r' here
    refine all r'.toStep ?_ ((expanded_id here).trans same)
    rw [steps]
    exact List.mem_map_of_mem (written r (by simp [listed]) r' here)

/-- What is harmless can be read back. -/
theorem readback_of_harmless (low : llongMin ≤ id) (high : id ≤ llongMax)
    (perm : sorted.Perm (merge id kvs rows)) (expanded : List.Forall₂ Expanded sorted outs)
    (readable : ∀ r ∈ rows, r.Readable)
    (accepted : ∀ f val, lastGiven f kvs = some val → ∃ v, fieldValue (definition f).type val = .ok v)
    (noNul : ∀ f val, lastGiven f kvs = some val → nul ∉ val) (harmless : Harmless id kvs rows) :
    Readback id kvs (file outs) := by
  have rows_perm := perm.trans (merge_perm id kvs rows)
  have tidy := outs_tidy perm expanded (fun r member => (readable r member).toTidy) fun f val last type =>
    ⟨(harmless.plain f val last type).1,(harmless.plain f val last type).2.1,noNul f val last⟩
  have filled : ∀ o ∈ outs, o.name ≠ [] ∧ o.user ≠ [] := by
    intro o member
    obtain ⟨r,listed,here⟩ := paired expanded.flip o member
    exact harmless.filled r (rows_perm.mem_iff.mp listed) o here
  refine ⟨_,stepsParse_file fun o member => ⟨tidy o member,(filled o member).1,(filled o member).2⟩,?_,?_⟩
  · have numbered := override_id (target_id low high rows) harmless.numbered
    obtain ⟨o,member,here⟩ := paired expanded (override kvs (target id rows)) (rows_perm.mem_iff.mpr (by simp))
    exact ⟨o.toStep,List.mem_map_of_mem member,(expanded_id here).trans numbered⟩
  · intro st member same
    obtain ⟨o,listed,rfl⟩ := List.mem_map.mp member
    obtain ⟨r,from_rows,here⟩ := paired expanded.flip o listed
    rcases List.mem_cons.mp (rows_perm.mem_iff.mp from_rows) with rfl | other
    · exact expanded_holds (override_holds accepted _) here fun f val last type => (harmless.plain f val last type).2.2
    · exact harmless.agree r other ((expanded_id here).symm.trans same) o here

end

theorem lastGiven_nul {f : Field} {kvs : List Arg} {val : Str} (last : lastGiven f kvs = some val) : nul ∉ val := by
  induction kvs with
  | nil => cases last
  | cons kv kvs ih =>
    simp only [lastGiven] at last
    cases later : lastGiven f kvs with
    | some _ => exact ih (by rw [later] at last ⊢; exact last)
    | none =>
      simp only [later,Option.none_or,valueFor] at last
      split at last
      · next key val' split =>
        split at last
        · cases last
          have shape := (strchr_some.mp split).1
          intro inside
          exact kv.noNul (by rw [shape]; simp [inside])
        · cases last
      · cases last

theorem parseId_bounds {str : Str} {id : Int} (identified : parseId str = .ok id) : llongMin ≤ id ∧ id ≤ llongMax := by
  unfold parseId at identified
  split at identified
  · next read =>
    cases identified
    have := strtonum_bounds read
    simp only [intMax,llongMin,llongMax] at *
    omega
  · cases identified

/-- A successful write can be read back exactly when what was given is harmless. -/
theorem readback_iff (q : Qsort Step.id) {text out : Str} {sf : StepFile} {arg : Arg} {id : Int} {kvs : List Arg}
    (parsed : stepsParse text = .ok sf) (identified : parseId arg.str = .ok id)
    (written : robsdStepWrite q [.i arg] kvs text = (0,out)) :
    Readback id kvs out ↔ Harmless id kvs (sf.steps.map Row.ofStep) := by
  obtain ⟨rows,shape,inside⟩ := stepsParse_rows parsed
  have same : sf.steps.map Row.ofStep = rows := by
    rw [shape,List.map_map]
    exact List.map_id rows
  rw [same]
  have readable := fun r member => (inside r member).1
  obtain ⟨low,high⟩ := parseId_bounds identified
  obtain ⟨_,_,steps,updated,done⟩ := (robsdStepWrite_ok parsed identified out).mp written
  rw [shape] at updated
  obtain ⟨sorted,outs,_,perm,expanded,rfl⟩ := written_rows updated done
  exact ⟨harmless_of_readback perm expanded readable,
    readback_of_harmless low high perm expanded readable (update_accepted updated) fun f val last => lastGiven_nul last⟩

/-- The arguments of a write with the given name. -/
def sample (name : Str) (noNul : nul ∉ name) : List Arg :=
  [⟨"name=".toList ++ name,fun member => (List.mem_append.mp member).elim (by decide) noNul⟩,
    ⟨"exit=0".toList,by decide⟩,⟨"duration=1".toList,by decide⟩,
    ⟨"user=u".toList,by decide⟩,⟨"time=1".toList,by decide⟩]

def one : Arg := ⟨"1".toList,by decide⟩

private theorem one_id : parseId one.str = .ok 1 := by
  have read : strtonum "1".toList (-intMax) intMax = .ok 1 := by decide
  simp only [parseId,one,read]

theorem readback_iff_sample :
    Readback 1 (sample "env".toList (by decide)) (stepsHeader ++ "1,env,0,1,0,,u,1,0\n".toList) ↔
      Harmless 1 (sample "env".toList (by decide)) [] :=
  readback_iff (insertion Step.id) stepsParse_nil one_id (by decide +kernel)

/-- The name of a regression suite or canvas step may contain a comma. -/
theorem write_not_readable :
    ¬ ∀ (q : Qsort Step.id) (text out : Str) (sf : StepFile) (arg : Arg) (id : Int) (kvs : List Arg),
    stepsParse text = .ok sf → parseId arg.str = .ok id → id ≠ 0 → robsdStepWrite q [.i arg] kvs text = (0,out) →
      Readback id kvs out := by
  intro claimed
  have readback := claimed (insertion Step.id) [] (stepsHeader ++ "1,a,b,0,1,0,,u,1,0\n".toList) _ one 1
    (sample "a,b".toList (by decide)) stepsParse_nil one_id (by decide) (by decide +kernel)
  obtain ⟨sf,accepted,⟨st,listed,numbered⟩,all⟩ := readback
  have holds := all st listed numbered
  obtain ⟨rows,shape,inside⟩ := stepsParse_rows accepted
  rw [shape] at listed
  obtain ⟨r,member,rfl⟩ := List.mem_map.mp listed
  have name : r.text .name = "a,b".toList := holds_text holds (by decide) rfl
  have clean := (inside r member).1.name.1
  rw [show r.name = "a,b".toList from name] at clean
  exact clean (by decide)

end Robsd.StepReadback
