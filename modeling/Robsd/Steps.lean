import Mathlib.Logic.Function.Basic
import Robsd.Decimal
import Robsd.Interpolate
import Robsd.Lexer
import Robsd.Sorting

/-!
The step file (step.c): the table of fields, the lexer and parser of the CSV
text, and the writer, which interpolates a template of references for each step.
-/
namespace Robsd.Steps
open Robsd.Strings
open Robsd.Decimal (decimal strtonum)
open Robsd.Lexer
open Robsd.Sorting (Qsort)

/-! ## Fields -/

/-- The indices of `st_fields`, in the order of the table `fields`. -/
inductive Field where
  | step
  | name
  | exit
  | duration
  | delta
  | log
  | user
  | time
  | skip
  deriving DecidableEq, Repr

/-- `enum step_field_type`, less `UNKNOWN` which no definition has. -/
inductive FieldType where
  | string
  | integer
  deriving DecidableEq, Repr

/-- One entry of the table of fields. -/
structure FieldDefinition where
  name : Str
  type : FieldType
  index : Field
  optional : Bool
  default : Option Str

def fields : List FieldDefinition := [
  ⟨"step".toList,.integer,.step,false,none⟩,
  ⟨"name".toList,.string,.name,false,none⟩,
  ⟨"exit".toList,.integer,.exit,false,none⟩,
  ⟨"duration".toList,.integer,.duration,false,none⟩,
  ⟨"delta".toList,.integer,.delta,true,some "0".toList⟩,
  ⟨"log".toList,.string,.log,true,some "".toList⟩,
  ⟨"user".toList,.string,.user,false,none⟩,
  ⟨"time".toList,.integer,.time,false,none⟩,
  ⟨"skip".toList,.integer,.skip,true,some "0".toList⟩]

def fieldDefinitionFindByName (name : Str) : Option FieldDefinition :=
  fields.find? fun fd => fd.name = name

/-- `struct step_field`: its type and the value of that type. -/
inductive StepField where
  | unknown
  | string (str : Str)
  | integer (n : Int64)
  deriving DecidableEq, Repr

def stepFieldIsEmpty (sf : StepField) : Bool := sf = .unknown

/-- `struct step`. -/
structure Step where
  fields : Field → StepField

/-- A step as `VECTOR_CALLOC` leaves it. -/
def Step.zero : Step := ⟨fun _ => .unknown⟩

/-- The integer in a field; memory that was never set is zero. -/
def Step.integer (st : Step) (f : Field) : Int64 :=
  match st.fields f with
  | .integer n => n
  | _ => 0

/-- The string in a field. -/
def Step.string (st : Step) (f : Field) : Str :=
  match st.fields f with
  | .string s => s
  | _ => []

/-- The key `step_cmp` compares. -/
def Step.id (st : Step) : Int := (st.integer .step).toInt

/-! ## Errors -/

inductive TokenType where
  | comma
  | value
  | newline
  deriving DecidableEq, Repr

def tokenSerialize : TokenType → String
  | .comma => "COMMA"
  | .value => "VALUE"
  | .newline => "NEWLINE"

/-- What goes wrong with a step file and with writing to it. -/
inductive Error where
  | pastEof
  | unterminatedValue (lno : Nat)
  | unexpected (u : Unexpected TokenType)
  | unknownColumn (lno col : Nat)
  | unknownField (lno : Nat) (key : Str)
  | noField (name : Str)
  | unknownKey (key : Str) (cause : Option (Str × Decimal.Error))
  | value (val : Str) (reason : Decimal.Error)
  | missingFields (lno : Nat) (names : List Str)
  | missingSeparator (kv : Str)
  | interpolation (e : Interpolate.Error)

/-- The lines logged for an error, each with the line number it starts with,
    zero standing for none. -/
def Error.text : Error → List (Nat × String)
  | .pastEof => []
  | .unterminatedValue lno => [(lno,"unterminated value")]
  | .unexpected u => [(u.lno,u.text tokenSerialize)]
  | .unknownColumn lno col => [(lno,"unknown column " ++ toString col)]
  | .unknownField lno key => [(lno,"unknown field '" ++ String.ofList key ++ "'")]
  | .noField _ => []
  | .unknownKey key cause =>
    cause.toList.map (fun c => (0,"value " ++ String.ofList c.1 ++ " " ++ c.2.text)) ++
      [(0,"unknown key '" ++ String.ofList key ++ "'")]
  | .value val reason => [(0,"value " ++ String.ofList val ++ " " ++ reason.text)]
  | .missingFields lno names => names.map fun name => (lno,"missing field '" ++ String.ofList name ++ "'")
  | .missingSeparator kv => [(0,"missing field separator in '" ++ String.ofList kv ++ "'")]
  | .interpolation e => [(0,e.text)]

/-! ## Setting fields -/

/-- The bounds given to `strtonum`. -/
def llongMin : Int := -9223372036854775808
def llongMax : Int := 9223372036854775807

/-- The value a field of the given type takes from a text. -/
def fieldValue (type : FieldType) (val : Str) : Except Error StepField :=
  match type with
  | .string => .ok (.string val)
  | .integer =>
    match strtonum val llongMin llongMax with
    | .ok n => .ok (.integer (Int64.ofInt n))
    | .error reason => .error (.value val reason)

def stepSetField (st : Step) (name val : Str) : Except Error Step :=
  match fieldDefinitionFindByName name with
  | none => .error (.noField name)
  | some fd => (fieldValue fd.type val).map fun v => ⟨Function.update st.fields fd.index v⟩

def stepSetFieldInteger (st : Step) (name : Str) (n : Int64) : Except Error Step :=
  match fieldDefinitionFindByName name with
  | none => .error (.noField name)
  | some fd => .ok ⟨Function.update st.fields fd.index (.integer n)⟩

/-- `step_init`: the defaults of the optional fields. -/
def stepInit : Except Error Step :=
  (fields.filter (·.optional)).foldlM (fun st fd => stepSetField st fd.name (fd.default.getD [])) Step.zero

/-- `step_set_keyval`, which reports any failure as an unknown key. -/
def stepSetKeyval (st : Step) (kv : Str) : Except Error Step :=
  match strchr '=' kv with
  | none => .error (.missingSeparator kv)
  | some (key,val) =>
    match stepSetField st key val with
    | .ok st => .ok st
    | .error (.value v reason) => .error (.unknownKey key (some (v,reason)))
    | .error _ => .error (.unknownKey key none)

/-! ## Reading -/

/-- The loop that collects the characters of a value, `ch` being the last one read. -/
def stepLexerValue (lno : Nat) (bf : Str) (ch : Char) (lx : Input) : Except Error (Item TokenType × Input) :=
  match _read : lexerGetc lx with
  | (none,_) => .error .pastEof
  | (some ch',lx') =>
    if _end : ch' = nul then .error (.unterminatedValue lno)
    else if ch' = ',' ∨ ch' = '\n' then
      .ok (.token { type := .value, lno := lno, str := bf ++ [ch] },lexerUngetc ch' lx')
    else stepLexerValue lno (bf ++ [ch]) ch' lx'
termination_by lx.rest.length
decreasing_by exact lexerGetc_length _read _end

def stepLexerRead (lx : Input) : Except Error (Item TokenType × Input) :=
  let lno := lx.lno
  match lexerGetc lx with
  | (none,_) => .error .pastEof
  | (some ch,lx) =>
    if ch = nul then .ok (.eof lno,lx)
    else if ch = ',' then .ok (.token { type := .comma, lno := lno },lx)
    else if ch = '\n' then .ok (.token { type := .newline, lno := lno },lx)
    else stepLexerValue lno [] ch lx

theorem stepLexerValue_length {lno : Nat} {bf : Str} {ch : Char} {lx lx' : Input} {item : Item TokenType}
    (run : stepLexerValue lno bf ch lx = .ok (item,lx')) : lx'.rest.length ≤ lx.rest.length := by
  induction size : lx.rest.length using Nat.strongRecOn generalizing bf ch lx with
  | _ n ih =>
    rw [stepLexerValue] at run
    split at run
    · cases run
    · next ch' next read =>
      split at run
      · cases run
      · next notEnd =>
        have shorter := lexerGetc_length read notEnd
        split at run
        · cases run
          have := lexerUngetc_length ch' next
          omega
        · have := ih next.rest.length (by omega) run rfl
          omega

theorem stepLexerRead_consumes {lx lx' : Input} {tk : Token TokenType}
    (run : stepLexerRead lx = .ok (.token tk,lx')) : lx'.rest.length < lx.rest.length := by
  unfold stepLexerRead at run
  split at run
  · cases run
  · next ch next read =>
    split_ifs at run with notEnd comma newline
    · cases run
    · cases run
      exact lexerGetc_length read notEnd
    · cases run
      exact lexerGetc_length read notEnd
    · have := stepLexerValue_length run
      have := lexerGetc_length read notEnd
      omega

/-- The read callback of the step file. -/
def stepReader : Reader TokenType Input Error where
  size lx := lx.rest.length
  read := stepLexerRead
  consumes := stepLexerRead_consumes

/-- `steps_parse_header`: the columns, none when the file is empty. -/
def stepsParseHeaderLoop (columns : List Str) (lx : Tokens TokenType) :
    Except Error (List Str × Tokens TokenType) :=
  match _value : lexerExpect .value lx with
  | (.error u,_) => .error (.unexpected u)
  | (.ok col,lx₁) =>
    match lexerIf .newline lx₁ with
    | some (_,lx₂) => .ok (columns ++ [col.str],lx₂)
    | none =>
      match _comma : lexerExpect .comma lx₁ with
      | (.error u,_) => .error (.unexpected u)
      | (.ok _,lx₂) => stepsParseHeaderLoop (columns ++ [col.str]) lx₂
termination_by lx.pending.length
decreasing_by
  have := lexerExpect_length _value
  have := lexerExpect_length _comma
  omega

/-- One turn of the loop over the columns. -/
theorem stepsParseHeaderLoop_eq (columns : List Str) (lx : Tokens TokenType) :
    stepsParseHeaderLoop columns lx =
      match lexerExpect .value lx with
      | (.error u,_) => .error (.unexpected u)
      | (.ok col,lx₁) =>
        match lexerIf .newline lx₁ with
        | some (_,lx₂) => .ok (columns ++ [col.str],lx₂)
        | none =>
          match lexerExpect .comma lx₁ with
          | (.error u,_) => .error (.unexpected u)
          | (.ok _,lx₂) => stepsParseHeaderLoop (columns ++ [col.str]) lx₂ := by
  rw [stepsParseHeaderLoop]
  cases lexerExpect .value lx with
  | mk got lx₁ =>
    cases got with
    | error u => rfl
    | ok col =>
      dsimp only
      cases lexerIf .newline lx₁ with
      | some _ => rfl
      | none =>
        dsimp only
        cases lexerExpect .comma lx₁ with
        | mk got lx₂ => cases got <;> rfl

def stepsParseHeader (lx : Tokens TokenType) : Except Error (List Str × Tokens TokenType) :=
  if lexerPeekEof lx then .ok ([],lx) else stepsParseHeaderLoop [] lx

/-- The loop of `steps_parse_row` from column `col` on, with the line number of
    the first value, zero before there is one. -/
def stepsParseRowLoop (columns : List Str) (col : Nat) (st : Step) (lno : Nat) (lx : Tokens TokenType) :
    Except Error (Step × Nat × Tokens TokenType) :=
  match _skip : lexerIf .comma lx with
  | some (_,lx₁) => stepsParseRowLoop columns (col+1) st lno lx₁
  | none =>
    match _value : lexerExpect .value lx with
    | (.error u,_) => .error (.unexpected u)
    | (.ok val,lx₁) =>
      let lno := if lno = 0 then val.lno else lno
      match columns[col]? with
      | none => .error (.unknownColumn val.lno col)
      | some key =>
        if (fieldDefinitionFindByName key).isNone then .error (.unknownField val.lno key)
        else match stepSetField st key val.str with
          | .error e => .error e
          | .ok st =>
            match lexerIf .newline lx₁ with
            | some (_,lx₂) => .ok (st,lno,lx₂)
            | none =>
              match _comma : lexerExpect .comma lx₁ with
              | (.error u,_) => .error (.unexpected u)
              | (.ok _,lx₂) => stepsParseRowLoop columns (col+1) st lno lx₂
termination_by lx.pending.length
decreasing_by
  · exact lexerIf_length _skip
  · have := lexerExpect_length _value
    have := lexerExpect_length _comma
    omega

/-- One turn of the loop over the cells of a row. -/
theorem stepsParseRowLoop_eq (columns : List Str) (col : Nat) (st : Step) (lno : Nat) (lx : Tokens TokenType) :
    stepsParseRowLoop columns col st lno lx =
      match lexerIf .comma lx with
      | some (_,lx₁) => stepsParseRowLoop columns (col+1) st lno lx₁
      | none =>
        match lexerExpect .value lx with
        | (.error u,_) => .error (.unexpected u)
        | (.ok val,lx₁) =>
          match columns[col]? with
          | none => .error (.unknownColumn val.lno col)
          | some key =>
            if (fieldDefinitionFindByName key).isNone then .error (.unknownField val.lno key)
            else match stepSetField st key val.str with
              | .error e => .error e
              | .ok st =>
                match lexerIf .newline lx₁ with
                | some (_,lx₂) => .ok (st,if lno = 0 then val.lno else lno,lx₂)
                | none =>
                  match lexerExpect .comma lx₁ with
                  | (.error u,_) => .error (.unexpected u)
                  | (.ok _,lx₂) => stepsParseRowLoop columns (col+1) st (if lno = 0 then val.lno else lno) lx₂ := by
  rw [stepsParseRowLoop]
  cases lexerIf .comma lx with
  | some _ => rfl
  | none =>
    dsimp only
    cases lexerExpect .value lx with
    | mk got lx₁ =>
      cases got with
      | error u => rfl
      | ok val =>
        dsimp only
        cases columns[col]? with
        | none => rfl
        | some key =>
          dsimp only
          apply if_congr Iff.rfl rfl
          cases stepSetField st key val.str with
          | error e => rfl
          | ok st =>
            dsimp only
            cases lexerIf .newline lx₁ with
            | some _ => rfl
            | none =>
              dsimp only
              cases lexerExpect .comma lx₁ with
              | mk got lx₂ => cases got <;> rfl

/-- The names of the required fields that are not set. -/
def missing (st : Step) : List Str :=
  (fields.filter fun fd => !fd.optional && stepFieldIsEmpty (st.fields fd.index)).map (·.name)

def stepValidate (st : Step) (lno : Nat) : Except Error Unit :=
  if missing st = [] then .ok () else .error (.missingFields lno (missing st))

def stepsParseRow (columns : List Str) (lx : Tokens TokenType) : Except Error (Step × Tokens TokenType) :=
  match stepInit with
  | .error e => .error e
  | .ok st =>
    match stepsParseRowLoop columns 0 st 0 lx with
    | .error e => .error e
    | .ok (st,lno,lx) => (stepValidate st lno).map fun _ => (st,lx)

theorem stepsParseRowLoop_length {columns : List Str} {col : Nat} {st st' : Step} {lno lno' : Nat}
    {lx lx' : Tokens TokenType} (run : stepsParseRowLoop columns col st lno lx = .ok (st',lno',lx')) :
    lx'.pending.length < lx.pending.length := by
  induction size : lx.pending.length using Nat.strongRecOn generalizing col st lno lx with
  | _ n ih =>
    rw [stepsParseRowLoop] at run
    split at run
    · next tk lx₁ skip =>
      have shorter := lexerIf_length skip
      have := ih lx₁.pending.length (by omega) run rfl
      omega
    · split at run
      · cases run
      · next val lx₁ value =>
        have shorter := lexerExpect_length value
        dsimp only at run
        split at run
        · cases run
        · split at run
          · cases run
          · split at run
            · cases run
            · split at run
              · next tk lx₂ newline =>
                cases run
                have := lexerIf_length newline
                omega
              · split at run
                · cases run
                · next tk lx₂ comma =>
                  have := lexerExpect_length comma
                  have := ih lx₂.pending.length (by omega) run rfl
                  omega

theorem stepsParseRow_length {columns : List Str} {lx lx' : Tokens TokenType} {st : Step}
    (run : stepsParseRow columns lx = .ok (st,lx')) : lx'.pending.length < lx.pending.length := by
  unfold stepsParseRow at run
  split at run
  · cases run
  · split at run
    · cases run
    · next st' lno lx'' loop =>
      cases valid : stepValidate st' lno with
      | error e => rw [valid] at run; cases run
      | ok _ =>
        rw [valid] at run
        cases run
        exact stepsParseRowLoop_length loop

/-- The loop of `steps_parse` over the rows. -/
def stepsParseRows (columns : List Str) (lx : Tokens TokenType) : Except Error (List Step) :=
  if lexerPeekEof lx then .ok []
  else match _row : stepsParseRow columns lx with
    | .error e => .error e
    | .ok (st,lx) => (stepsParseRows columns lx).map (st :: ·)
termination_by lx.pending.length
decreasing_by exact stepsParseRow_length _row

theorem stepsParseRows_eq (columns : List Str) (lx : Tokens TokenType) :
    stepsParseRows columns lx =
      if lexerPeekEof lx then .ok []
      else match stepsParseRow columns lx with
        | .error e => .error e
        | .ok (st,lx) => (stepsParseRows columns lx).map (st :: ·) := by
  rw [stepsParseRows]
  apply if_congr Iff.rfl rfl
  cases stepsParseRow columns lx <;> rfl

/-- `struct step_file`: its columns and its steps. -/
structure StepFile where
  columns : List Str
  steps : List Step

/-- `steps_parse` on the content of the file. -/
def stepsParse (text : Str) : Except Error StepFile := do
  let (lx,_) ← lexerAlloc stepReader (Input.start text)
  let (columns,lx) ← stepsParseHeader lx
  let steps ← stepsParseRows columns lx
  return ⟨columns,steps⟩

/-- `steps_find_by_name`. -/
def stepsFindByName (steps : List Step) (name : Str) : Option Step :=
  steps.find? fun st => !stepFieldIsEmpty (st.fields .name) && st.string .name = name

/-- `steps_find_by_id`. -/
def stepsFindById (steps : List Step) (id : Int) : Option Step :=
  steps.find? fun st => !stepFieldIsEmpty (st.fields .step) && st.id = id

/-! ## Writing -/

/-- Texts with commas between them. -/
def commas : List Str → Str
  | [] => []
  | [x] => x
  | x :: xs => x ++ ',' :: commas xs

/-- `steps_header`. -/
def stepsHeader : Str := commas (fields.map (·.name)) ++ ['\n']

/-- `step_interpolate_lookup`. -/
def stepInterpolateLookup (st : Step) (name : Str) : Option Str :=
  match fieldDefinitionFindByName name with
  | none => none
  | some fd =>
    match st.fields fd.index with
    | .unknown => none
    | .string s => some s
    | .integer n => some (decimal n.toInt)

/-- The reference to a field. -/
def reference (name : Str) : Str := '$' :: '{' :: name ++ ['}']

/-- The template of `step_serialize`. -/
def template : Str := commas (fields.map fun fd => reference fd.name) ++ ['\n']

/-- `interpolate_str` with the fields of a step. -/
def stepInterpolate (st : Step) (str : Str) : Except Error Str :=
  match (Interpolate.interpolateStr (Interpolate.reading (stepInterpolateLookup st)) false str ()).1 with
  | .ok out => .ok out
  | .error e => .error (.interpolation e)

def stepSerialize (st : Step) : Except Error Str := stepInterpolate st template

/-- The bytes `steps_write` gives to `fwrite`; the file is not opened before all
    of them are there. -/
def stepsWrite (q : Qsort Step.id) (steps : List Step) : Except Error Str := do
  let rows ← (q.sort steps).mapM stepSerialize
  return stepsHeader ++ rows.flatten

end Robsd.Steps
