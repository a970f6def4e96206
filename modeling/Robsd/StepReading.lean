import Robsd.StepFormat

/-!
Reading the step file: the tokens and the steps of a text that has the form the
writer gives it, and what any text that is accepted at all contains.
-/
namespace Robsd.StepReading
open Robsd.Strings
open Robsd.Decimal (decimal decimal_ne_nil strtonum strtonum_bounds strtonum_decimal)
open Robsd.Lexer
open Robsd.Sorting
open Robsd.Steps
open Robsd.StepFormat

/-! ## Tokens of a line -/

def comma (lno : Nat) : Token TokenType := { type := .comma, lno := lno }
def newline (lno : Nat) : Token TokenType := { type := .newline, lno := lno }
def value (lno : Nat) (str : Str) : Token TokenType := { type := .value, lno := lno, str := str }

/-- A cell gives a token unless it is empty. -/
def cellTokens (lno : Nat) (cell : Str) : List (Token TokenType) := if cell = [] then [] else [value lno cell]

def lineTokens (lno : Nat) : List Str → List (Token TokenType)
  | [] => [newline lno]
  | [cell] => cellTokens lno cell ++ [newline lno]
  | cell :: cells => cellTokens lno cell ++ comma lno :: lineTokens lno cells

def linesTokens (lno : Nat) : List (List Str) → List (Token TokenType)
  | [] => []
  | cells :: lines => lineTokens lno cells ++ linesTokens (lno+1) lines

/-- From a line on, the text is lexed into the tokens, the end of file being at
    line `last`. -/
def Lexed (lno : Nat) (text : Str) (tks : List (Token TokenType)) (last : Nat) : Prop :=
  ∃ s, lexerAlloc stepReader ⟨text,lno,0⟩ = .ok (⟨tks,last⟩,s)

private theorem lexed_token {lno lno' last : Nat} {text rest : Str} {tk : Token TokenType}
    {tks : List (Token TokenType)} (read : stepLexerRead ⟨text,lno,0⟩ = .ok (.token tk,⟨rest,lno',0⟩))
    (later : Lexed lno' rest tks last) : Lexed lno text (tk :: tks) last := by
  obtain ⟨s,run⟩ := later
  refine ⟨s,?_⟩
  rw [lexerAlloc_token (r := stepReader) read,run]
  rfl

theorem lexed_nil (lno : Nat) : Lexed lno [] [] lno :=
  ⟨⟨[],lno,1⟩,lexerAlloc_eof (r := stepReader) (by simp [stepReader,stepLexerRead])⟩

theorem lexed_comma {lno last : Nat} {rest : Str} {tks : List (Token TokenType)}
    (later : Lexed lno rest tks last) : Lexed lno (',' :: rest) (comma lno :: tks) last :=
  lexed_token (by simp [stepLexerRead,comma,show ',' ≠ nul from by decide]) later

theorem lexed_newline {lno last : Nat} {rest : Str} {tks : List (Token TokenType)}
    (later : Lexed (lno+1) rest tks last) : Lexed lno ('\n' :: rest) (newline lno :: tks) last :=
  lexed_token (by simp [stepLexerRead,newline,show '\n' ≠ nul from by decide]) later

/-- The characters of a value are collected up to the comma or newline behind it. -/
private theorem lexerValue_clean {lno : Nat} {stop : Char} (rest : Str) (positive : 0 < lno)
    (stops : stop = ',' ∨ stop = '\n') :
    ∀ (s bf : Str) (ch : Char), Clean s →
      stepLexerValue lno bf ch ⟨s ++ stop :: rest,lno,0⟩ = .ok (.token (value lno (bf ++ ch :: s)),⟨stop :: rest,lno,0⟩)
  | [],bf,ch,_ => by
    rw [stepLexerValue]
    rcases stops with rfl | rfl
    · simp [value,lexerUngetc,show ',' ≠ nul from by decide]
    · simp [value,lexerUngetc,show '\n' ≠ nul from by decide,positive]
  | c :: s,bf,ch,clean => by
    obtain ⟨noComma,noNewline,noNul⟩ := clean
    simp only [List.mem_cons,not_or] at noComma noNewline noNul
    have next := lexerValue_clean rest positive stops s (bf ++ [ch]) c ⟨noComma.2,noNewline.2,noNul.2⟩
    rw [stepLexerValue]
    simp only [List.cons_append,lexerGetc_cons,Ne.symm noNul.1,Ne.symm noComma.1,Ne.symm noNewline.1,↓reduceDIte,
      ↓reduceIte,or_self]
    rw [next]
    simp

theorem lexed_cell {lno last : Nat} {cell rest : Str} {stop : Char} {tks : List (Token TokenType)}
    (positive : 0 < lno) (clean : Clean cell) (stops : stop = ',' ∨ stop = '\n')
    (later : Lexed lno (stop :: rest) tks last) :
    Lexed lno (cell ++ stop :: rest) (cellTokens lno cell ++ tks) last := by
  cases cell with
  | nil => simpa [cellTokens] using later
  | cons c s =>
    obtain ⟨noComma,noNewline,noNul⟩ := clean
    simp only [List.mem_cons,not_or] at noComma noNewline noNul
    have collected := lexerValue_clean rest positive stops s [] c ⟨noComma.2,noNewline.2,noNul.2⟩
    refine lexed_token ?_ later
    simp only [List.cons_append,stepLexerRead,lexerGetc_cons,Ne.symm noNul.1,Ne.symm noComma.1,Ne.symm noNewline.1,
      ↓reduceIte]
    exact collected

theorem lexed_line {lno last : Nat} {rest : Str} {tks : List (Token TokenType)} (positive : 0 < lno)
    (later : Lexed (lno+1) rest tks last) : ∀ cells : List Str, (∀ c ∈ cells, Clean c) →
      Lexed lno (commas cells ++ '\n' :: rest) (lineTokens lno cells ++ tks) last
  | [],_ => lexed_newline later
  | [cell],clean => by
    simpa [lineTokens,commas] using lexed_cell positive (clean cell (by simp)) (.inr rfl) (lexed_newline later)
  | cell :: second :: cells,clean => by
    have tail := lexed_line positive later (second :: cells) fun c member => clean c (by simp [member])
    simpa [lineTokens,commas] using lexed_cell positive (clean cell (by simp)) (.inl rfl) (lexed_comma tail)

theorem lexed_lines : ∀ (lines : List (List Str)) (lno : Nat), 0 < lno → (∀ cells ∈ lines, ∀ c ∈ cells, Clean c) →
    Lexed lno (lines.map fun cells => commas cells ++ ['\n']).flatten (linesTokens lno lines) (lno+lines.length)
  | [],lno,_,_ => lexed_nil lno
  | cells :: lines,lno,positive,clean => by
    have tail := lexed_lines lines (lno+1) (by omega) fun cells member => clean cells (by simp [member])
    have line := lexed_line positive tail cells (clean cells (by simp))
    simpa [linesTokens,Nat.add_assoc,Nat.add_comm 1] using line

/-! ## Steps of a line -/

theorem parseHeader_line {lno last : Nat} {tks : List (Token TokenType)} :
    ∀ (names columns : List Str), names ≠ [] → (∀ n ∈ names, n ≠ []) →
      stepsParseHeaderLoop columns ⟨lineTokens lno names ++ tks,last⟩ = .ok (columns ++ names,⟨tks,last⟩)
  | [],_,nonempty,_ => absurd rfl nonempty
  | [n],columns,_,named => by
    rw [stepsParseHeaderLoop_eq]
    simp [lineTokens,cellTokens,named n (by simp),lexerExpect,lexerIf,value,newline]
  | n :: m :: names,columns,_,named => by
    have tail := @parseHeader_line lno last tks (m :: names) (columns ++ [n]) (by simp)
      fun k member => named k (by simp [member])
    rw [stepsParseHeaderLoop_eq]
    simp [lineTokens,cellTokens,named n (by simp),lexerExpect,lexerIf,value,comma,tail]

theorem lineTokens_ne_nil (lno : Nat) : ∀ cells : List Str, lineTokens lno cells ≠ []
  | [] => by simp [lineTokens]
  | [_] => by simp [lineTokens]
  | _ :: _ :: _ => by simp [lineTokens]

/-- Parsing goes on behind the header. -/
theorem stepsParse_header {names : List Str} {tks : List (Token TokenType)} {last : Nat} {text : Str}
    (nonempty : names ≠ []) (named : ∀ n ∈ names, n ≠ [])
    (lexed : Lexed 1 text (lineTokens 1 names ++ tks) last) :
    stepsParse text = (stepsParseRows names ⟨tks,last⟩).map fun steps => ⟨names,steps⟩ := by
  obtain ⟨s,lexed⟩ := lexed
  have more : lexerPeekEof ⟨lineTokens 1 names ++ tks,last⟩ = false := by
    simp [lexerPeekEof,lineTokens_ne_nil]
  have header := @parseHeader_line 1 last tks names [] nonempty named
  simp only [stepsParse,Input.start,lexed,bind,Except.bind,stepsParseHeader,more,Bool.false_eq_true,↓reduceIte,header,
    List.nil_append]
  cases stepsParseRows names ⟨tks,last⟩ <;> rfl

/-- What a row does to a step: the cells that are not empty are assigned to
    their columns in turn. -/
def assign (st : Step) : List (Str × Str) → Except Error Step
  | [] => .ok st
  | (col,val) :: cells => if val = [] then assign st cells else (stepSetField st col val).bind fun st => assign st cells

/-- A line whose last cell is not empty is parsed by assigning its cells. -/
theorem parseRow_line {columns : List Str} {lno last : Nat} {tks : List (Token TokenType)} (positive : 0 < lno)
    (known : ∀ c ∈ columns, (fieldDefinitionFindByName c).isSome) :
    ∀ (cells : List Str) (col : Nat) (st : Step) (seen : Nat), col+cells.length ≤ columns.length →
      cells ≠ [] → cells.getLast? ≠ some [] →
      stepsParseRowLoop columns col st seen ⟨lineTokens lno cells ++ tks,last⟩ =
        (assign st ((columns.drop col).zip cells)).map fun st' => (st',if seen = 0 then lno else seen,⟨tks,last⟩)
  | [],_,_,_,_,nonempty,_ => absurd rfl nonempty
  | [final],col,st,seen,fits,_,filled => by
    have within : col < columns.length := by simp at fits; omega
    have final_ne : final ≠ [] := by simpa using filled
    have key := Option.isSome_iff_ne_none.mp (known columns[col] (List.getElem_mem within))
    rw [stepsParseRowLoop_eq,List.drop_eq_getElem_cons within]
    simp only [lineTokens,cellTokens,final_ne,↓reduceIte,value,newline,List.cons_append,List.nil_append,lexerIf,
      lexerExpect,reduceCtorEq,List.getElem?_eq_getElem within,List.zip_cons_cons,List.zip_nil_right,assign]
    rw [if_neg (by simpa using key)]
    cases stepSetField st columns[col] final <;> rfl
  | cell :: next :: cells,col,st,seen,fits,_,filled => by
    have within : col < columns.length := by simp at fits; omega
    have key := Option.isSome_iff_ne_none.mp (known columns[col] (List.getElem_mem within))
    have tail := fun st seen => @parseRow_line columns lno last tks positive known (next :: cells) (col+1) st seen
      (by simp at fits ⊢; omega) (by simp) (by simpa using filled)
    rw [stepsParseRowLoop_eq,List.drop_eq_getElem_cons within]
    by_cases empty : cell = []
    · simp only [lineTokens,cellTokens,empty,↓reduceIte,comma,List.cons_append,List.nil_append,lexerIf,tail,
        List.zip_cons_cons,assign]
    · simp only [lineTokens,cellTokens,empty,↓reduceIte,value,comma,List.cons_append,List.nil_append,lexerIf,
        lexerExpect,reduceCtorEq,List.getElem?_eq_getElem within,List.zip_cons_cons,assign]
      rw [if_neg (by simpa using key)]
      cases stepSetField st columns[col] cell with
      | error e => rfl
      | ok st' =>
        have later := tail st' (if seen = 0 then lno else seen)
        have kept : (if (if seen = 0 then lno else seen) = 0 then lno else if seen = 0 then lno else seen) =
            if seen = 0 then lno else seen := by split_ifs <;> omega
        rw [kept] at later
        exact later

/-! ## Rows -/

theorem stepSetField_definition (st : Step) (f : Field) (val : Str) :
    stepSetField st (definition f).name val =
      (fieldValue (definition f).type val).map fun v => ⟨Function.update st.fields f v⟩ := by
  simp [stepSetField,find_definition]

theorem int64_bounds (n : Int64) : llongMin ≤ n.toInt ∧ n.toInt ≤ llongMax := by
  have low := n.le_toInt
  have high := n.toInt_lt
  simp only [llongMin,llongMax]
  omega

/-- The text of a field denotes the value of the field. -/
theorem fieldValue_text (r : Row) (f : Field) :
    fieldValue (definition f).type (r.text f) = .ok (r.toStep.fields f) := by
  have number : ∀ n : Int64, fieldValue .integer (decimal n.toInt) = .ok (.integer n) := fun n => by
    simp only [fieldValue,strtonum_decimal (int64_bounds n).1 (int64_bounds n).2,Int64.ofInt_toInt]
  cases f <;> first | rfl | exact number _

/-- Cells under distinct columns set the fields of those that are not empty. -/
theorem assign_row (r : Row) : ∀ (fs : List Field) (st : Step), fs.Nodup →
    assign st (fs.map fun f => ((definition f).name,r.text f)) =
      .ok ⟨fun f => if f ∈ fs ∧ r.text f ≠ [] then r.toStep.fields f else st.fields f⟩
  | [],st,_ => by simp [assign]
  | f :: fs,st,distinct => by
    obtain ⟨fresh,distinct⟩ := List.nodup_cons.mp distinct
    by_cases empty : r.text f = []
    · simp only [List.map_cons,assign,empty,↓reduceIte,assign_row r fs st distinct]
      congr 2
      funext g
      by_cases same : g = f
      · simp [same,fresh,empty]
      · simp [same]
    · simp only [List.map_cons,assign,empty,↓reduceIte,stepSetField_definition,fieldValue_text,Except.map,Except.bind,
        assign_row r fs _ distinct]
      congr 2
      funext g
      by_cases same : g = f
      · subst same
        simp [fresh,empty]
      · simp [same]

/-- The step every row starts from. -/
def initial : Step where
  fields
    | .delta => .integer 0
    | .log => .string []
    | .skip => .integer 0
    | _ => .unknown

theorem stepInit_eq : stepInit = .ok initial := by
  have zero : fieldValue .integer "0".toList = .ok (.integer 0) := by
    rw [show "0".toList = decimal 0 from by decide,fieldValue,strtonum_decimal (by decide) (by decide)]
    rfl
  have optional : fields.filter (·.optional) = [definition .delta,definition .log,definition .skip] := rfl
  have number : ∀ st f, (definition f).type = .integer →
      stepSetField st (definition f).name "0".toList = .ok ⟨Function.update st.fields f (.integer 0)⟩ := by
    intro st f type
    rw [stepSetField_definition,type,zero]
    rfl
  have log : ∀ st, stepSetField st (definition .log).name [] = .ok ⟨Function.update st.fields .log (.string [])⟩ :=
    fun st => stepSetField_definition st .log []
  have delta : ∀ st, stepSetField st (definition .delta).name "0".toList = _ := fun st => number st .delta rfl
  have skip : ∀ st, stepSetField st (definition .skip).name "0".toList = _ := fun st => number st .skip rfl
  unfold stepInit
  rw [optional]
  simp only [List.foldlM_cons,List.foldlM_nil,show (definition .delta).default.getD [] = "0".toList from rfl,
    show (definition .log).default.getD [] = [] from rfl,show (definition .skip).default.getD [] = "0".toList from rfl,
    delta,log,skip,bind,Except.bind,pure,Except.pure]
  congr 2
  funext f
  cases f <;> rfl

/-- What is left in a step after the line of a row was read. -/
def Row.read (r : Row) : Step where
  fields f := if r.text f = [] then initial.fields f else r.toStep.fields f

theorem text_ne_nil (r : Row) (f : Field) : r.text f = [] ↔
    f = .name ∧ r.name = [] ∨ f = .log ∧ r.log = [] ∨ f = .user ∧ r.user = [] := by
  cases f <;> simp [Row.text,decimal_ne_nil]

theorem read_eq (r : Row) (named : r.name ≠ []) (owned : r.user ≠ []) : Row.read r = r.toStep := by
  simp only [Row.read]
  congr
  funext f
  split
  · next empty =>
    rcases (text_ne_nil r f).mp empty with ⟨_,absent⟩ | ⟨rfl,absent⟩ | ⟨_,absent⟩
    · exact absurd absent named
    · simp [initial,absent]
    · exact absurd absent owned
  · rfl

theorem missing_eq (st : Step) : missing st =
    ((Field.all.filter fun f => !(definition f).optional && stepFieldIsEmpty (st.fields f)).map fun f =>
      (definition f).name) := by
  simp only [missing,fields_eq,List.filter_map,List.map_map]
  congr 2
  funext f
  simp

theorem missing_read (r : Row) : missing (Row.read r) = [] ↔ r.name ≠ [] ∧ r.user ≠ [] := by
  rw [missing_eq]
  constructor
  · intro none
    simp only [List.map_eq_nil_iff,List.filter_eq_nil_iff] at none
    refine ⟨fun absent => none .name (by decide) ?_,fun absent => none .user (by decide) ?_⟩
    · simp [Row.read,Row.text,absent,initial,stepFieldIsEmpty,show (definition .name).optional = false from rfl]
    · simp [Row.read,Row.text,absent,initial,stepFieldIsEmpty,show (definition .user).optional = false from rfl]
  · rintro ⟨named,owned⟩
    simp only [read_eq r named owned,List.map_eq_nil_iff,List.filter_eq_nil_iff]
    intro f _
    have set : stepFieldIsEmpty (r.toStep.fields f) = false := by cases f <;> rfl
    simp [set]

/-- The columns of a written file. -/
def columns : List Str := Field.all.map fun f => (definition f).name

theorem columns_known : ∀ c ∈ columns, (fieldDefinitionFindByName c).isSome := by
  intro c member
  obtain ⟨f,_,rfl⟩ := List.mem_map.mp member
  simp [find_definition]

theorem parseRow_row (r : Row) {lno last : Nat} {tks : List (Token TokenType)} (positive : 0 < lno) :
    stepsParseRow columns ⟨lineTokens lno r.cells ++ tks,last⟩ =
      if r.name ≠ [] ∧ r.user ≠ [] then .ok (r.toStep,⟨tks,last⟩)
      else .error (.missingFields lno (missing (Row.read r))) := by
  have line := @parseRow_line columns lno last tks positive columns_known r.cells 0 initial 0
    (by simp [Row.cells,columns,Field.all]) (by simp [Row.cells]) (by simp [Row.cells,decimal_ne_nil])
  have cells : (columns.drop 0).zip r.cells = Field.all.map fun f => ((definition f).name,r.text f) := rfl
  have every : ∀ f, f ∈ Field.all := fun f => by cases f <;> decide
  have assigned := assign_row r Field.all initial (by decide)
  have read : (⟨fun f => if f ∈ Field.all ∧ r.text f ≠ [] then r.toStep.fields f else initial.fields f⟩ : Step) =
      Row.read r := by
    simp only [Row.read]
    congr
    funext f
    by_cases empty : r.text f = [] <;> simp [every,empty]
  rw [cells,assigned,read] at line
  simp only [Except.map,↓reduceIte] at line
  simp only [stepsParseRow,stepInit_eq,line,stepValidate,missing_read]
  split_ifs with filled
  · rw [← read_eq r filled.1 filled.2]
    rfl
  · rfl

/-- Rows are parsed as they are, provided that the required strings are there. -/
theorem parseRows_rows {last : Nat} : ∀ (rows : List Row) (lno : Nat), 0 < lno →
    ((∀ r ∈ rows, r.name ≠ [] ∧ r.user ≠ []) →
      stepsParseRows columns ⟨linesTokens lno (rows.map Row.cells),last⟩ = .ok (rows.map Row.toStep)) ∧
    ((∃ r ∈ rows, ¬ (r.name ≠ [] ∧ r.user ≠ [])) →
      ∃ e, stepsParseRows columns ⟨linesTokens lno (rows.map Row.cells),last⟩ = .error e)
  | [],lno,_ => by simp [stepsParseRows_eq,linesTokens,lexerPeekEof]
  | r :: rows,lno,positive => by
    obtain ⟨good,bad⟩ := @parseRows_rows last rows (lno+1) (by omega)
    have row := @parseRow_row r lno last (linesTokens (lno+1) (rows.map Row.cells)) positive
    have more : lexerPeekEof ⟨lineTokens lno r.cells ++ linesTokens (lno+1) (rows.map Row.cells),last⟩ = false := by
      simp [lexerPeekEof,Row.cells,lineTokens]
    rw [stepsParseRows_eq]
    simp only [List.map_cons,linesTokens,more,Bool.false_eq_true,↓reduceIte,row]
    by_cases filled : r.name ≠ [] ∧ r.user ≠ []
    · rw [if_pos filled]
      constructor
      · intro all
        simp [good fun r member => all r (by simp [member]),Except.map]
      · rintro ⟨r',member,lacking⟩
        rcases List.mem_cons.mp member with rfl | later
        · exact absurd filled lacking
        · obtain ⟨e,failed⟩ := bad ⟨r',later,lacking⟩
          exact ⟨e,by simp [failed,Except.map]⟩
    · rw [if_neg filled]
      exact ⟨fun all => absurd (all r (by simp)) filled,fun _ => ⟨_,rfl⟩⟩

private theorem parse_lines (rows : List Row) (tidy : ∀ r ∈ rows, r.Tidy) : ∃ last,
    Lexed 1 (file rows) (lineTokens 1 columns ++ linesTokens 2 (rows.map Row.cells)) last := by
  have clean : ∀ cells ∈ columns :: rows.map Row.cells, ∀ c ∈ cells, Clean c := by
    intro cells member
    rcases List.mem_cons.mp member with rfl | row
    · intro c column
      obtain ⟨f,_,rfl⟩ := List.mem_map.mp column
      exact name_clean f
    · obtain ⟨r,listed,rfl⟩ := List.mem_map.mp row
      have := tidy r listed
      simp only [Row.cells,List.mem_cons,List.not_mem_nil,or_false]
      rintro c (rfl | rfl | rfl | rfl | rfl | rfl | rfl | rfl | rfl)
      all_goals first | exact clean_decimal _ | exact this.name | exact this.log | exact this.user
  have text : file rows = ((columns :: rows.map Row.cells).map fun cells => commas cells ++ ['\n']).flatten := by
    simp only [file,List.map_cons,List.map_map,List.flatten_cons]
    rfl
  rw [text]
  exact ⟨_,lexed_lines (columns :: rows.map Row.cells) 1 (by omega) clean⟩

/-- The parser reads back the rows of a file that keep to their cells. -/
theorem stepsParse_file {rows : List Row} (readable : ∀ r ∈ rows, r.Readable) :
    stepsParse (file rows) = .ok ⟨columns,rows.map Row.toStep⟩ := by
  obtain ⟨last,lexed⟩ := parse_lines rows fun r member => (readable r member).toTidy
  have body := (@parseRows_rows last rows 2 (by omega)).1 fun r member =>
    ⟨(readable r member).named,(readable r member).owned⟩
  rw [stepsParse_header (by decide) (by decide) lexed,body]
  rfl

/-- The empty file has no columns and no steps. -/
theorem stepsParse_nil : stepsParse [] = .ok ⟨[],[]⟩ := by
  obtain ⟨s,lexed⟩ := lexed_nil 1
  simp only [stepsParse,Input.start,lexed,bind,Except.bind,stepsParseHeader,lexerPeekEof,List.isEmpty_nil,↓reduceIte]
  rw [stepsParseRows_eq]
  rfl

/-- It rejects a file in which a required string is empty. -/
theorem stepsParse_incomplete {rows : List Row} (tidy : ∀ r ∈ rows, r.Tidy)
    (lacking : ∃ r ∈ rows, ¬ (r.name ≠ [] ∧ r.user ≠ [])) : ∃ e, stepsParse (file rows) = .error e := by
  obtain ⟨last,lexed⟩ := parse_lines rows tidy
  obtain ⟨e,body⟩ := (@parseRows_rows last rows 2 (by omega)).2 lacking
  refine ⟨e,?_⟩
  rw [stepsParse_header (by decide) (by decide) lexed,body]
  rfl

/-! ## Round trip -/

/-- Whatever the order `qsort` gives to equal numbers, it is an order of the rows. -/
theorem sort_rows (q : Qsort Step.id) (rows : List Row) :
    ∃ rows' : List Row, q.sort (rows.map Row.toStep) = rows'.map Row.toStep ∧ rows'.Perm rows := by
  refine ⟨(q.sort (rows.map Row.toStep)).map Row.ofStep,?_,?_⟩
  · rw [List.map_map]
    refine (List.map_id _).symm.trans (List.map_congr_left ?_)
    intro st member
    obtain ⟨r,_,rfl⟩ := List.mem_map.mp ((mem_sort q).mp member)
    rfl
  · have perm := (q.perm (rows.map Row.toStep)).map Row.ofStep
    rwa [List.map_map,show Row.ofStep ∘ Row.toStep = id from rfl,List.map_id] at perm

/-- Rows that are written as they are. -/
theorem stepsWrite_representable (q : Qsort Step.id) {rows rows' : List Row}
    (sorted : q.sort (rows.map Row.toStep) = rows'.map Row.toStep) (representable : ∀ r ∈ rows', r.Representable) :
    stepsWrite q (rows.map Row.toStep) = .ok (file rows') := by
  refine (stepsWrite_ok_iff q _ rows' sorted _).mpr ⟨rows',List.forall₂_same.mpr ?_,rfl⟩
  intro r member
  have plain := representable r member
  exact expanded_self ⟨plain.namePlain,plain.logPlain,plain.userPlain⟩

/-- What is written of rows with distinct numbers is read back as these rows in
    ascending order, and writing them once more gives the same bytes. -/
theorem write_parse_write (q q' : Qsort Step.id) (rows : List Row) (distinct : (rows.map Row.id).Nodup)
    (representable : ∀ r ∈ rows, r.Representable) :
    ∃ (bytes : Str) (sorted : List Row), stepsWrite q (rows.map Row.toStep) = .ok bytes ∧
      stepsParse bytes = .ok ⟨columns,sorted.map Row.toStep⟩ ∧
      sorted.Perm rows ∧ sorted.Pairwise (fun r r' => r.id < r'.id) ∧
      stepsWrite q' (sorted.map Row.toStep) = .ok bytes := by
  obtain ⟨sorted,order,perm⟩ := sort_rows q rows
  have kept : ∀ r ∈ sorted, r.Representable := fun r member => representable r (perm.mem_iff.mp member)
  have ascending : (sorted.map Row.toStep).Pairwise fun st st' => st.id < st'.id := by
    rw [← order]
    exact sort_strict q (by rwa [List.map_map])
  refine ⟨file sorted,sorted,stepsWrite_representable q order kept,stepsParse_file fun r member =>
    (kept r member).toReadable,perm,?_,stepsWrite_representable q' (sort_of_strict q' ascending) kept⟩
  rwa [List.pairwise_map] at ascending

/-- Extreme integers and an empty log survive, and the rows change places. -/
theorem write_parse_write_extremes :
    ∃ (bytes : Str) (sorted : List Row), stepsWrite (insertion Step.id)
        ([(⟨7,"end".toList,0,3,-1,"".toList,"root".toList,Int64.maxValue,0⟩ : Row),
          ⟨Int64.minValue,"env".toList,-1,0,0,"env.log".toList,"u".toList,0,1⟩].map Row.toStep) = .ok bytes ∧
      stepsParse bytes = .ok ⟨columns,sorted.map Row.toStep⟩ ∧
      sorted.Perm [⟨7,"end".toList,0,3,-1,"".toList,"root".toList,Int64.maxValue,0⟩,
          ⟨Int64.minValue,"env".toList,-1,0,0,"env.log".toList,"u".toList,0,1⟩] ∧
      sorted.Pairwise (fun r r' => r.id < r'.id) ∧
      stepsWrite (insertion Step.id) (sorted.map Row.toStep) = .ok bytes :=
  write_parse_write (insertion Step.id) (insertion Step.id) _ (by decide) (by decide)

/-! ## Accepted files -/

section
variable {Q : Char → Prop}

/-- What holds of a token whose value, if it has one, consists of characters of
    a kind. -/
def Valued (Q : Char → Prop) (tk : Token TokenType) : Prop :=
  tk.type = .value → tk.str ≠ [] ∧ ∀ c ∈ tk.str, Q c

/-- The kind of characters that occur in the values of a text. -/
def Inside (text : Str) (c : Char) : Prop := c ≠ ',' ∧ c ≠ '\n' ∧ c ≠ nul ∧ c ∈ text

private theorem getc_inside {text : Str} {lx lx' : Input} {ch : Option Char}
    (within : ∀ c ∈ lx.rest, c ∈ text) (read : lexerGetc lx = (ch,lx')) :
    (∀ c ∈ lx'.rest, c ∈ text) ∧ ∀ c, ch = some c → c ≠ nul → c ∈ text := by
  obtain ⟨rest,lno,eof⟩ := lx
  cases rest with
  | nil =>
    simp only [lexerGetc_nil,Prod.mk.injEq] at read
    obtain ⟨rfl,rfl⟩ := read
    refine ⟨by simp,?_⟩
    intro c same notEnd
    split at same
    · exact absurd (Option.some.inj same).symm notEnd
    · cases same
  | cons d ds =>
    simp only [lexerGetc_cons,Prod.mk.injEq] at read
    obtain ⟨rfl,rfl⟩ := read
    refine ⟨fun c member => within c (by simp [member]),?_⟩
    intro c same _
    rw [← Option.some.inj same]
    exact within d (by simp)

private theorem ungetc_inside {text : Str} {lx : Input} {ch : Char} (within : ∀ c ∈ lx.rest, c ∈ text)
    (here : ch ∈ text) : ∀ c ∈ (lexerUngetc ch lx).rest, c ∈ text := by
  unfold lexerUngetc
  split
  · exact within
  · rintro c member
    rcases List.mem_cons.mp member with rfl | later
    · exact here
    · exact within c later

private theorem lexerValue_inside {text : Str} {lno : Nat} {bf : Str} {ch : Char} {lx lx' : Input}
    {item : Item TokenType} (run : stepLexerValue lno bf ch lx = .ok (item,lx'))
    (before : ∀ c ∈ bf, Inside text c) (here : Inside text ch) (within : ∀ c ∈ lx.rest, c ∈ text) :
    (∃ str, item = .token (value lno str) ∧ str ≠ [] ∧ ∀ c ∈ str, Inside text c) ∧ ∀ c ∈ lx'.rest, c ∈ text := by
  induction size : lx.rest.length using Nat.strongRecOn generalizing bf ch lx with
  | _ n ih =>
    have collected : ∀ c ∈ bf ++ [ch], Inside text c := by
      intro c member
      rcases List.mem_append.mp member with earlier | last
      · exact before c earlier
      · rwa [List.mem_singleton.mp last]
    rw [stepLexerValue] at run
    split at run
    · cases run
    · next ch' next read =>
      obtain ⟨kept,found⟩ := getc_inside within read
      split at run
      · cases run
      · next notEnd =>
        have shorter := lexerGetc_length read notEnd
        split at run
        · cases run
          exact ⟨⟨bf ++ [ch],rfl,by simp,collected⟩,ungetc_inside kept (found ch' rfl notEnd)⟩
        · next inside =>
          rw [not_or] at inside
          exact ih next.rest.length (by omega) run collected ⟨inside.1,inside.2,notEnd,found ch' rfl notEnd⟩ kept rfl

/-- The values of the tokens consist of characters of the text. -/
theorem lexed_inside {text : Str} {tks : Tokens TokenType} {s : Input}
    (run : lexerAlloc stepReader (Input.start text) = .ok (tks,s)) :
    ∀ tk ∈ tks.pending, Valued (Inside text) tk := by
  refine lexerAlloc_forall (I := fun lx => ∀ c ∈ lx.rest, c ∈ text) ?_ (fun c member => member) run
  intro lx lx' tk within read
  simp only [stepReader,stepLexerRead] at read
  split at read
  · cases read
  · next ch next got =>
    obtain ⟨kept,found⟩ := getc_inside within got
    split_ifs at read with notEnd isComma isNewline
    · cases read
    · cases read
      exact ⟨nofun,kept⟩
    · cases read
      exact ⟨nofun,kept⟩
    · obtain ⟨⟨str,same,filled,inside⟩,kept⟩ := lexerValue_inside read (by simp)
        ⟨isComma,isNewline,notEnd,found ch rfl notEnd⟩ kept
      cases same
      exact ⟨fun _ => ⟨filled,inside⟩,kept⟩

/-- What may stand in a field while a row is parsed. -/
def Fits (Q : Char → Prop) (f : Field) : StepField → Prop
  | .unknown => (definition f).optional = false
  | .string s => (definition f).type = .string ∧ (s = [] → (definition f).optional = true) ∧ ∀ c ∈ s, Q c
  | .integer _ => (definition f).type = .integer

theorem initial_fits (f : Field) : Fits Q f (initial.fields f) := by
  cases f with
  | log => exact ⟨rfl,fun _ => rfl,by simp⟩
  | _ => rfl

theorem stepSetField_fits {st st' : Step} {name val : Str} (fits : ∀ f, Fits Q f (st.fields f))
    (set : stepSetField st name val = .ok st') (filled : val ≠ []) (inside : ∀ c ∈ val, Q c) :
    ∀ f, Fits Q f (st'.fields f) := by
  unfold stepSetField at set
  cases found : fieldDefinitionFindByName name with
  | none => simp [found] at set
  | some fd =>
    obtain ⟨g,rfl,rfl⟩ := find_some found
    simp only [found,definition_index] at set
    cases valued : fieldValue (definition g).type val with
    | error e => rw [valued] at set; cases set
    | ok v =>
      rw [valued] at set
      cases set
      intro f
      by_cases same : f = g
      · subst same
        simp only [Function.update_self]
        unfold fieldValue at valued
        split at valued
        · next type =>
          cases valued
          exact ⟨type,fun empty => absurd empty filled,inside⟩
        · next type =>
          split at valued
          · cases valued
            exact type
          · cases valued
      · simpa only [Function.update_of_ne same] using fits f

private theorem tokens_after {type : TokenType} {lx lx' : Tokens TokenType} {tk : Token TokenType}
    {P : Token TokenType → Prop} (next : lexerIf type lx = some (tk,lx')) (all : ∀ tk ∈ lx.pending, P tk) :
    tk.type = type ∧ P tk ∧ ∀ tk ∈ lx'.pending, P tk := by
  obtain ⟨typed,rfl⟩ := lexerIf_some.mp next
  exact ⟨typed,all tk (by simp),fun tk member => all tk (by simp [member])⟩

theorem stepsParseRowLoop_fits {columns : List Str} {col : Nat} {st st' : Step} {lno lno' : Nat}
    {lx lx' : Tokens TokenType} (run : stepsParseRowLoop columns col st lno lx = .ok (st',lno',lx'))
    (fits : ∀ f, Fits Q f (st.fields f)) (valued : ∀ tk ∈ lx.pending, Valued Q tk) :
    (∀ f, Fits Q f (st'.fields f)) ∧ ∀ tk ∈ lx'.pending, Valued Q tk := by
  induction size : lx.pending.length using Nat.strongRecOn generalizing col st lno lx with
  | _ n ih =>
    rw [stepsParseRowLoop_eq] at run
    split at run
    · next tk lx₁ skip =>
      exact ih lx₁.pending.length (size ▸ lexerIf_length skip) run fits (tokens_after skip valued).2.2 rfl
    · split at run
      · cases run
      · next val lx₁ got =>
        obtain ⟨typed,here,later⟩ := tokens_after (lexerExpect_ok.mp got) valued
        obtain ⟨filled,inside⟩ := here typed
        split at run
        · cases run
        · split at run
          · cases run
          · split at run
            · cases run
            · next st₁ set =>
              have kept := stepSetField_fits fits set filled inside
              split at run
              · next tk lx₂ ended =>
                cases run
                exact ⟨kept,(tokens_after ended later).2.2⟩
              · split at run
                · cases run
                · next tk lx₂ separated =>
                  have shorter := lexerExpect_length got
                  have := lexerExpect_length separated
                  exact ih lx₂.pending.length (by omega) run kept
                    (tokens_after (lexerExpect_ok.mp separated) later).2.2 rfl

/-- A step in which nothing is missing is a row. -/
theorem fits_row {st : Step} (fits : ∀ f, Fits Q f (st.fields f)) (complete : missing st = []) :
    (Row.ofStep st).toStep = st := by
  refine row_of_typed ?_ ?_
  · intro f
    have kind := fits f
    cases content : st.fields f with
    | unknown => trivial
    | string s => rw [content] at kind; exact kind.1
    | integer n => rw [content] at kind; exact kind
  · intro f absent
    have optional := fits f
    rw [absent] at optional
    rw [missing_eq,List.map_eq_nil_iff,List.filter_eq_nil_iff] at complete
    have := complete f (by cases f <;> decide)
    simp [absent,stepFieldIsEmpty,show (definition f).optional = false from optional] at this

theorem stepsParseHeader_valued {columns : List Str} {lx lx' : Tokens TokenType}
    (run : stepsParseHeader lx = .ok (columns,lx')) (valued : ∀ tk ∈ lx.pending, Valued Q tk) :
    ∀ tk ∈ lx'.pending, Valued Q tk := by
  have loop : ∀ (before : List Str) (lx : Tokens TokenType), stepsParseHeaderLoop before lx = .ok (columns,lx') →
      (∀ tk ∈ lx.pending, Valued Q tk) → ∀ tk ∈ lx'.pending, Valued Q tk := by
    intro before lx
    induction size : lx.pending.length using Nat.strongRecOn generalizing before lx with
    | _ n ih =>
      intro run valued
      rw [stepsParseHeaderLoop_eq] at run
      split at run
      · cases run
      · next col lx₁ got =>
        have later := (tokens_after (lexerExpect_ok.mp got) valued).2.2
        split at run
        · next tk lx₂ ended =>
          cases run
          exact (tokens_after ended later).2.2
        · split at run
          · cases run
          · next tk lx₂ separated =>
            have shorter := lexerExpect_length got
            have := lexerExpect_length separated
            exact ih lx₂.pending.length (by omega) _ lx₂ rfl run (tokens_after (lexerExpect_ok.mp separated) later).2.2
  unfold stepsParseHeader at run
  split at run
  · cases run
    exact valued
  · exact loop [] lx run valued

/-- A parsed step is a row, with text of the kind its tokens have. -/
theorem stepsParseRow_row {columns : List Str} {st : Step} {lx lx' : Tokens TokenType}
    (run : stepsParseRow columns lx = .ok (st,lx')) (valued : ∀ tk ∈ lx.pending, Valued Q tk) :
    (∃ r : Row, st = r.toStep ∧ ∀ f, Fits Q f (r.toStep.fields f)) ∧ ∀ tk ∈ lx'.pending, Valued Q tk := by
  rw [stepsParseRow,stepInit_eq] at run
  dsimp only at run
  split at run
  · cases run
  · next st₁ lno lx₁ loop =>
    obtain ⟨fits,later⟩ := stepsParseRowLoop_fits loop initial_fits valued
    unfold stepValidate at run
    split at run
    · next complete =>
      cases run
      have row := fits_row fits complete
      exact ⟨⟨Row.ofStep st,row.symm,row.symm ▸ fits⟩,later⟩
    · cases run

theorem stepsParseRows_rows {columns : List Str} {steps : List Step} {lx : Tokens TokenType}
    (run : stepsParseRows columns lx = .ok steps) (valued : ∀ tk ∈ lx.pending, Valued Q tk) :
    ∃ rows : List Row, steps = rows.map Row.toStep ∧ ∀ r ∈ rows, ∀ f, Fits Q f (r.toStep.fields f) := by
  induction size : lx.pending.length using Nat.strongRecOn generalizing lx steps with
  | _ n ih =>
    rw [stepsParseRows_eq] at run
    split at run
    · cases run
      exact ⟨[],rfl,by simp⟩
    · split at run
      · cases run
      · next st lx₁ row =>
        obtain ⟨⟨r,rfl,fits⟩,later⟩ := stepsParseRow_row row valued
        cases rest : stepsParseRows columns lx₁ with
        | error e => rw [rest] at run; cases run
        | ok steps₁ =>
          rw [rest] at run
          cases run
          obtain ⟨rows,rfl,all⟩ := ih lx₁.pending.length (size ▸ stepsParseRow_length row) rest later rfl
          refine ⟨r :: rows,rfl,?_⟩
          rintro r' member
          rcases List.mem_cons.mp member with rfl | more
          · exact fits
          · exact all r' more

end

/-- Whatever is accepted consists of rows whose strings keep to their cells and
    are made of characters of the text. -/
theorem stepsParse_rows {text : Str} {sf : StepFile} (accepted : stepsParse text = .ok sf) :
    ∃ rows : List Row, sf.steps = rows.map Row.toStep ∧
      ∀ r ∈ rows, r.Readable ∧ (∀ c ∈ r.name, c ∈ text) ∧ (∀ c ∈ r.log, c ∈ text) ∧ ∀ c ∈ r.user, c ∈ text := by
  simp only [stepsParse,bind,Except.bind] at accepted
  split at accepted
  · cases accepted
  · next lexed run =>
    split at accepted
    · cases accepted
    · next header parsed =>
      split at accepted
      · cases accepted
      · next steps body =>
        cases accepted
        have valued := stepsParseHeader_valued parsed (lexed_inside run)
        obtain ⟨rows,rfl,fits⟩ := stepsParseRows_rows body valued
        refine ⟨rows,rfl,?_⟩
        intro r member
        obtain ⟨_,named,name⟩ := fits r member .name
        obtain ⟨_,_,log⟩ := fits r member .log
        obtain ⟨_,owned,user⟩ := fits r member .user
        have clean : ∀ s : Str, (∀ c ∈ s, Inside text c) → Clean s := fun s inside =>
          ⟨fun member => (inside _ member).1 rfl,fun member => (inside _ member).2.1 rfl,
            fun member => (inside _ member).2.2.1 rfl⟩
        exact ⟨⟨⟨clean _ name,clean _ log,clean _ user⟩,fun empty => (nomatch named empty),fun empty =>
          (nomatch owned empty)⟩,
          fun c member => (name c member).2.2.2,fun c member => (log c member).2.2.2,fun c member =>
            (user c member).2.2.2⟩

end Robsd.StepReading
