import Robsd.Steps

/-!
The format of the step file: what the writer makes of a step with all fields
set, what the parser makes of that text, and what any accepted file contains.
-/
namespace Robsd.StepFormat
open Robsd.Strings
open Robsd.Decimal (decimal decimal_ne_nil decimal_absent)
open Robsd.Lexer
open Robsd.Interpolate (Expands reading expands_reference_iff expands_plain_iff interpolate_ok_iff)
open Robsd.Steps

/-! ## Rows -/

/-- The values of a step in which all nine fields are set. -/
structure Row where
  step : Int64
  name : Str
  exit : Int64
  duration : Int64
  delta : Int64
  log : Str
  user : Str
  time : Int64
  skip : Int64
  deriving DecidableEq, Repr

def Row.toStep (r : Row) : Step where
  fields
    | .step => .integer r.step
    | .name => .string r.name
    | .exit => .integer r.exit
    | .duration => .integer r.duration
    | .delta => .integer r.delta
    | .log => .string r.log
    | .user => .string r.user
    | .time => .integer r.time
    | .skip => .integer r.skip

def Row.ofStep (st : Step) : Row where
  step := st.integer .step
  name := st.string .name
  exit := st.integer .exit
  duration := st.integer .duration
  delta := st.integer .delta
  log := st.string .log
  user := st.string .user
  time := st.integer .time
  skip := st.integer .skip

/-- The number by which rows are ordered. -/
def Row.id (r : Row) : Int := r.step.toInt

@[simp] theorem toStep_id (r : Row) : r.toStep.id = r.id := rfl
@[simp] theorem ofStep_toStep (r : Row) : Row.ofStep r.toStep = r := rfl

theorem toStep_injective {r r' : Row} (same : r.toStep = r'.toStep) : r = r' := by
  rw [← ofStep_toStep r,same,ofStep_toStep]

/-- The cells of a row, in the order of the columns. -/
def Row.cells (r : Row) : List Str :=
  [decimal r.step.toInt,r.name,decimal r.exit.toInt,decimal r.duration.toInt,decimal r.delta.toInt,
    r.log,r.user,decimal r.time.toInt,decimal r.skip.toInt]

/-- The line of a row. -/
def Row.line (r : Row) : Str := commas r.cells ++ ['\n']

/-- The file with the given rows. -/
def file (rows : List Row) : Str := stepsHeader ++ (rows.map Row.line).flatten

/-- Text that keeps its meaning inside a cell. -/
def Clean (s : Str) : Prop := ',' ∉ s ∧ '\n' ∉ s ∧ nul ∉ s

instance (s : Str) : Decidable (Clean s) := inferInstanceAs (Decidable (_ ∧ _))

/-- Rows whose strings stay inside their cells. -/
structure Row.Tidy (r : Row) : Prop where
  name : Clean r.name
  log : Clean r.log
  user : Clean r.user

/-- What a parsed row satisfies. -/
structure Row.Readable (r : Row) : Prop extends r.Tidy where
  named : r.name ≠ []
  owned : r.user ≠ []

/-- Rows that are written as they are: the strings contain no reference either. -/
structure Row.Representable (r : Row) : Prop extends r.Readable where
  namePlain : '$' ∉ r.name
  logPlain : '$' ∉ r.log
  userPlain : '$' ∉ r.user

instance (r : Row) : Decidable r.Readable :=
  decidable_of_iff (Clean r.name ∧ Clean r.log ∧ Clean r.user ∧ r.name ≠ [] ∧ r.user ≠ [])
    ⟨fun ⟨a,b,c,d,e⟩ => ⟨⟨a,b,c⟩,d,e⟩,fun ⟨⟨a,b,c⟩,d,e⟩ => ⟨a,b,c,d,e⟩⟩

instance (r : Row) : Decidable r.Representable :=
  decidable_of_iff (r.Readable ∧ '$' ∉ r.name ∧ '$' ∉ r.log ∧ '$' ∉ r.user)
    ⟨fun ⟨a,b,c,d⟩ => ⟨a,b,c,d⟩,fun ⟨a,b,c,d⟩ => ⟨a,b,c,d⟩⟩

theorem clean_decimal (n : Int) : Clean (decimal n) :=
  ⟨decimal_absent n (by decide) (by decide),decimal_absent n (by decide) (by decide),
    decimal_absent n (by decide) (by decide)⟩

theorem plain_decimal (n : Int) : '$' ∉ decimal n := decimal_absent n (by decide) (by decide)

/-! ## The table of fields -/

/-- The entry of the table at an index. -/
def definition : Field → FieldDefinition
  | .step => ⟨"step".toList,.integer,.step,false,none⟩
  | .name => ⟨"name".toList,.string,.name,false,none⟩
  | .exit => ⟨"exit".toList,.integer,.exit,false,none⟩
  | .duration => ⟨"duration".toList,.integer,.duration,false,none⟩
  | .delta => ⟨"delta".toList,.integer,.delta,true,some "0".toList⟩
  | .log => ⟨"log".toList,.string,.log,true,some "".toList⟩
  | .user => ⟨"user".toList,.string,.user,false,none⟩
  | .time => ⟨"time".toList,.integer,.time,false,none⟩
  | .skip => ⟨"skip".toList,.integer,.skip,true,some "0".toList⟩

def Field.all : List Field := [.step,.name,.exit,.duration,.delta,.log,.user,.time,.skip]

theorem fields_eq : fields = Field.all.map definition := rfl

@[simp] theorem definition_index (f : Field) : (definition f).index = f := by cases f <;> rfl

/-- The table is looked up by name without loss: names are distinct. -/
theorem find_definition (f : Field) : fieldDefinitionFindByName (definition f).name = some (definition f) := by
  cases f <;> rfl

theorem find_some {name : Str} {fd : FieldDefinition} (found : fieldDefinitionFindByName name = some fd) :
    ∃ f, fd = definition f ∧ name = (definition f).name := by
  have member : fd ∈ Field.all.map definition := fields_eq ▸ List.mem_of_find?_eq_some found
  have named := List.find?_some found
  obtain ⟨f,_,rfl⟩ := List.mem_map.mp member
  exact ⟨f,rfl,by simpa using (decide_eq_true_eq.mp named).symm⟩

theorem name_ne_nil (f : Field) : (definition f).name ≠ [] := by cases f <;> decide
theorem name_no_brace (f : Field) : '}' ∉ (definition f).name := by cases f <;> decide
theorem name_clean (f : Field) : Clean (definition f).name := by cases f <;> decide

/-- A field that is set holds a value of the type in the table. -/
def Typed (f : Field) : StepField → Prop
  | .unknown => True
  | .string _ => (definition f).type = .string
  | .integer _ => (definition f).type = .integer

/-- A step with all fields set is a row. -/
theorem row_of_typed {st : Step} (typed : ∀ f, Typed f (st.fields f)) (set : ∀ f, st.fields f ≠ .unknown) :
    (Row.ofStep st).toStep = st := by
  have number : ∀ f, (definition f).type = .integer → StepField.integer (st.integer f) = st.fields f := by
    intro f type
    have kind := typed f
    unfold Step.integer
    cases content : st.fields f with
    | unknown => exact absurd content (set f)
    | string s => rw [content] at kind; rw [show (definition f).type = .string from kind] at type; cases type
    | integer n => rfl
  have text : ∀ f, (definition f).type = .string → StepField.string (st.string f) = st.fields f := by
    intro f type
    have kind := typed f
    unfold Step.string
    cases content : st.fields f with
    | unknown => exact absurd content (set f)
    | string s => rfl
    | integer n => rw [content] at kind; rw [show (definition f).type = .integer from kind] at type; cases type
  have same : (Row.ofStep st).toStep.fields = st.fields := by
    funext f
    cases f <;> first | exact number _ rfl | exact text _ rfl
  exact congrArg Step.mk same

theorem toStep_typed (r : Row) (f : Field) : Typed f (r.toStep.fields f) := by cases f <;> rfl

/-! ## Writing -/

/-- A row with its strings replaced by what they expand to. -/
def Expanded (r r' : Row) : Prop :=
  Expands (stepInterpolateLookup r.toStep) 3 r.name r'.name ∧
    Expands (stepInterpolateLookup r.toStep) 3 r.log r'.log ∧
    Expands (stepInterpolateLookup r.toStep) 3 r.user r'.user ∧
    r'.step = r.step ∧ r'.exit = r.exit ∧ r'.duration = r.duration ∧ r'.delta = r.delta ∧
    r'.time = r.time ∧ r'.skip = r.skip

theorem expanded_self {r : Row} (plain : '$' ∉ r.name ∧ '$' ∉ r.log ∧ '$' ∉ r.user) : Expanded r r :=
  ⟨.plain plain.1,.plain plain.2.1,.plain plain.2.2,rfl,rfl,rfl,rfl,rfl,rfl⟩

theorem expanded_id {r r' : Row} (expanded : Expanded r r') : r'.id = r.id := by
  simp only [Row.id,expanded.2.2.2.1]

/-- A list of references expands to the list of what the values expand to. -/
private theorem expands_commas {f : Str → Option Str} {levels : Nat} :
    ∀ (names : List Str) (before out : Str), names ≠ [] → '$' ∉ before →
      (∀ n ∈ names, n ≠ [] ∧ '}' ∉ n) →
      (Expands f (levels+1) (before ++ (commas (names.map reference) ++ ['\n'])) out ↔
        ∃ outs, List.Forall₂ (fun n o => ∃ v, f n = some v ∧ Expands f levels v o) names outs ∧
          out = before ++ (commas outs ++ ['\n']))
  | [],_,_,nonempty,_,_ => absurd rfl nonempty
  | [n],before,out,_,first,named => by
    have one := named n (by simp)
    have shape : before ++ (commas ([n].map reference) ++ ['\n']) = before ++ '$' :: '{' :: (n ++ '}' :: ['\n']) := by
      simp [commas,reference]
    rw [shape,expands_reference_iff first one.2 one.1]
    constructor
    · rintro ⟨v,o,rest,resolves,expanded,tail,rfl⟩
      rw [(expands_plain_iff (by decide)).mp tail]
      exact ⟨[o],.cons ⟨v,resolves,expanded⟩ .nil,by simp [commas]⟩
    · rintro ⟨outs,all,rfl⟩
      cases all with
      | @cons _ o _ _ here more =>
        cases more
        obtain ⟨v,resolves,expanded⟩ := here
        exact ⟨v,o,['\n'],resolves,expanded,.plain (by decide),by simp [commas]⟩
  | n :: m :: names,before,out,_,first,named => by
    have one := named n (by simp)
    have shape : before ++ (commas ((n :: m :: names).map reference) ++ ['\n']) =
        before ++ '$' :: '{' :: (n ++ '}' :: ([','] ++ (commas ((m :: names).map reference) ++ ['\n']))) := by
      simp [commas,reference]
    rw [shape,expands_reference_iff first one.2 one.1]
    have later := fun rest => @expands_commas f levels (m :: names) [','] rest (by simp) (by decide)
      (fun k member => named k (by simp [member]))
    constructor
    · rintro ⟨v,o,rest,resolves,expanded,tail,rfl⟩
      obtain ⟨outs,all,rfl⟩ := (later rest).mp tail
      refine ⟨o :: outs,.cons ⟨v,resolves,expanded⟩ all,?_⟩
      cases all
      simp [commas]
    · rintro ⟨outs,all,rfl⟩
      cases all with
      | @cons _ o _ outs here more =>
        obtain ⟨v,resolves,expanded⟩ := here
        refine ⟨v,o,_,resolves,expanded,(later _).mpr ⟨outs,more,rfl⟩,?_⟩
        cases more
        simp [commas]

/-- The value a reference to a field resolves to. -/
def Row.text (r : Row) : Field → Str
  | .step => decimal r.step.toInt
  | .name => r.name
  | .exit => decimal r.exit.toInt
  | .duration => decimal r.duration.toInt
  | .delta => decimal r.delta.toInt
  | .log => r.log
  | .user => r.user
  | .time => decimal r.time.toInt
  | .skip => decimal r.skip.toInt

theorem cells_eq (r : Row) : r.cells = Field.all.map r.text := rfl

theorem lookup_toStep (r : Row) (f : Field) :
    stepInterpolateLookup r.toStep (definition f).name = some (r.text f) := by
  simp only [stepInterpolateLookup,find_definition]
  cases f <;> rfl

/-- Every value of a lookup is the text of a field. -/
theorem lookup_some {r : Row} {name value : Str} (resolves : stepInterpolateLookup r.toStep name = some value) :
    ∃ f, value = r.text f := by
  cases found : fieldDefinitionFindByName name with
  | none => simp [stepInterpolateLookup,found] at resolves
  | some fd =>
    obtain ⟨f,rfl,rfl⟩ := find_some found
    rw [lookup_toStep] at resolves
    exact ⟨f,(Option.some.inj resolves).symm⟩

private theorem cells_expanded (r : Row) (outs : List Str) :
    List.Forall₂ (fun n o => ∃ v, stepInterpolateLookup r.toStep n = some v ∧
        Expands (stepInterpolateLookup r.toStep) 3 v o) (fields.map (·.name)) outs ↔
      ∃ r', Expanded r r' ∧ outs = r'.cells := by
  have value : ∀ f o, (∃ v, stepInterpolateLookup r.toStep (definition f).name = some v ∧
      Expands (stepInterpolateLookup r.toStep) 3 v o) ↔ Expands (stepInterpolateLookup r.toStep) 3 (r.text f) o := by
    intro f o
    rw [lookup_toStep]
    simp
  have number : ∀ (n : Int) o, Expands (stepInterpolateLookup r.toStep) 3 (decimal n) o ↔ o = decimal n :=
    fun n o => expands_plain_iff (plain_decimal n)
  rw [fields_eq,List.map_map,List.forall₂_map_left_iff]
  simp only [Function.comp_apply,value]
  constructor
  · intro all
    simp only [Field.all,List.forall₂_cons_left_iff,List.forall₂_nil_left_iff,Row.text,number] at all
    obtain ⟨_,_,rfl,⟨name,_,named,⟨_,_,rfl,⟨_,_,rfl,⟨_,_,rfl,⟨log,_,logged,⟨user,_,owned,
      ⟨_,_,rfl,⟨_,_,rfl,rfl,rfl⟩,rfl⟩,rfl⟩,rfl⟩,rfl⟩,rfl⟩,rfl⟩,rfl⟩,rfl⟩ := all
    exact ⟨{ r with name := name, log := log, user := user },⟨named,logged,owned,rfl,rfl,rfl,rfl,rfl,rfl⟩,rfl⟩
  · rintro ⟨r',⟨named,logged,owned,step,exit,duration,delta,time,skip⟩,rfl⟩
    simp only [Field.all,Row.cells,List.forall₂_cons,List.forall₂_nil_left_iff,Row.text,number,
      step,exit,duration,delta,time,skip,named,logged,owned,and_self]

theorem stepInterpolate_ok_iff (st : Step) (str out : Str) :
    stepInterpolate st str = .ok out ↔ Expands (stepInterpolateLookup st) 4 str out := by
  rw [← interpolate_ok_iff _ _ _ ()]
  unfold stepInterpolate Interpolate.interpolateStr
  split
  · next done => rw [done]; simp
  · next failed => rw [failed]; simp

private theorem stepSerialize_eq (st : Step) (out : Str) :
    stepSerialize st = .ok out ↔
      ∃ outs, List.Forall₂ (fun n o => ∃ v, stepInterpolateLookup st n = some v ∧
        Expands (stepInterpolateLookup st) 3 v o) (fields.map (·.name)) outs ∧ out = commas outs ++ ['\n'] := by
  have refs : template = [] ++ (commas ((fields.map (·.name)).map reference) ++ ['\n']) := by
    simp only [template,List.map_map,List.nil_append]
    rfl
  rw [stepSerialize,stepInterpolate_ok_iff,refs,
    expands_commas (fields.map (·.name)) [] out (by decide) (by simp) (by decide)]
  rfl

/-- The writer turns a row into the line of what it expands to. -/
theorem stepSerialize_ok_iff (r : Row) (out : Str) :
    stepSerialize r.toStep = .ok out ↔ ∃ r', Expanded r r' ∧ out = r'.line := by
  simp only [stepSerialize_eq,cells_expanded]
  constructor
  · rintro ⟨outs,⟨r',expanded,rfl⟩,rfl⟩
    exact ⟨r',expanded,rfl⟩
  · rintro ⟨r',expanded,rfl⟩
    exact ⟨r'.cells,⟨r',expanded,rfl⟩,rfl⟩

/-- A step that lacks a field is not written. -/
theorem stepSerialize_set {st : Step} {out : Str} (written : stepSerialize st = .ok out) (f : Field) :
    st.fields f ≠ .unknown := by
  obtain ⟨outs,all,_⟩ := (stepSerialize_eq st out).mp written
  intro absent
  have named : (definition f).name ∈ fields.map (·.name) := by
    rw [fields_eq,List.map_map]
    exact List.mem_map.mpr ⟨f,by cases f <;> decide,rfl⟩
  obtain ⟨i,within,here⟩ := List.getElem_of_mem named
  obtain ⟨v,resolves,_⟩ := all.get within (all.length_eq ▸ within)
  simp [here,stepInterpolateLookup,find_definition,absent] at resolves

private theorem mapM_ok_iff {α β ε : Type} {f : α → Except ε β} :
    ∀ (xs : List α) (ys : List β), xs.mapM f = .ok ys ↔ List.Forall₂ (fun x y => f x = .ok y) xs ys
  | [],ys => by
    simp only [List.mapM_nil,List.forall₂_nil_left_iff]
    exact ⟨fun same => (Except.ok.inj same).symm,fun same => by rw [same]; rfl⟩
  | x :: xs,ys => by
    rw [List.mapM_cons,List.forall₂_cons_left_iff]
    cases here : f x with
    | error e =>
      constructor
      · intro impossible; cases impossible
      · rintro ⟨y,_,impossible,_⟩; cases impossible
    | ok y =>
      have step : (Except.ok y >>= fun y => xs.mapM f >>= fun ys => pure (y :: ys) : Except ε (List β)) = .ok ys ↔
          ∃ ys', xs.mapM f = .ok ys' ∧ ys = y :: ys' := by
        cases later : xs.mapM f with
        | error e =>
          constructor
          · intro impossible; cases impossible
          · rintro ⟨_,impossible,_⟩; cases impossible
        | ok ys' =>
          constructor
          · intro same; exact ⟨ys',rfl,(Except.ok.inj same).symm⟩
          · rintro ⟨_,same,rfl⟩; cases same; rfl
      rw [step]
      constructor
      · rintro ⟨ys',later,rfl⟩
        exact ⟨y,ys',rfl,(mapM_ok_iff xs ys').mp later,rfl⟩
      · rintro ⟨y',ys',same,all,rfl⟩
        cases same
        exact ⟨ys',(mapM_ok_iff xs ys').mpr all,rfl⟩

/-- The writer sorts the rows and writes what they expand to. -/
theorem stepsWrite_ok_iff (q : Sorting.Qsort Step.id) (steps : List Step) (rows : List Row)
    (sorted : q.sort steps = rows.map Row.toStep) (out : Str) :
    stepsWrite q steps = .ok out ↔ ∃ rows', List.Forall₂ Expanded rows rows' ∧ out = file rows' := by
  have written : stepsWrite q steps = .ok out ↔
      ∃ lines, (rows.map Row.toStep).mapM stepSerialize = .ok lines ∧ out = stepsHeader ++ lines.flatten := by
    unfold stepsWrite
    rw [sorted]
    cases (rows.map Row.toStep).mapM stepSerialize with
    | error e =>
      constructor
      · intro impossible; cases impossible
      · rintro ⟨_,impossible,_⟩; cases impossible
    | ok lines =>
      constructor
      · intro same; exact ⟨lines,rfl,(Except.ok.inj same).symm⟩
      · rintro ⟨_,same,rfl⟩; cases same; rfl
  rw [written]
  simp only [mapM_ok_iff,List.forall₂_map_left_iff,stepSerialize_ok_iff]
  constructor
  · rintro ⟨lines,all,rfl⟩
    have split : ∃ rows', List.Forall₂ Expanded rows rows' ∧ lines = rows'.map Row.line := by
      clear sorted written
      induction all with
      | nil => exact ⟨[],.nil,rfl⟩
      | cons here _ ih =>
        obtain ⟨r',expanded,rfl⟩ := here
        obtain ⟨rows',all,rfl⟩ := ih
        exact ⟨r' :: rows',.cons expanded all,rfl⟩
    obtain ⟨rows',paired,rfl⟩ := split
    exact ⟨rows',paired,rfl⟩
  · rintro ⟨rows',all,rfl⟩
    refine ⟨rows'.map Row.line,?_,rfl⟩
    rw [List.forall₂_map_right_iff]
    exact all.imp fun _ r' expanded => ⟨r',expanded,rfl⟩

theorem stepsWrite_set {q : Sorting.Qsort Step.id} {steps : List Step} {out : Str}
    (written : stepsWrite q steps = .ok out) : ∀ st ∈ steps, ∀ f, st.fields f ≠ .unknown := by
  unfold stepsWrite at written
  cases lines : (q.sort steps).mapM stepSerialize with
  | error e => rw [lines] at written; cases written
  | ok _ =>
    intro st member
    obtain ⟨i,within,rfl⟩ := List.getElem_of_mem ((Sorting.mem_sort q).mpr member)
    have all := (mapM_ok_iff _ _).mp lines
    exact stepSerialize_set (all.get within (all.length_eq ▸ within))

end Robsd.StepFormat
