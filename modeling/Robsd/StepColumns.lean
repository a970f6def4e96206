import Robsd.StepReading

/-!
Step files whose header names the columns in any order, optional ones being
left out or not, and what the lines below such a header are read as.
-/
namespace Robsd.StepColumns
open Robsd.Strings
open Robsd.Decimal (Numeral decimal decimal_ne_nil numeral_decimal strtonum_numeral)
open Robsd.Lexer
open Robsd.Steps
open Robsd.StepFormat
open Robsd.StepReading

/-! ## Cells -/

/-- The value that a text denotes in a field. -/
def Denotes (f : Field) (text : Str) : StepField → Prop
  | .unknown => False
  | .string s => (definition f).type = .string ∧ s = text
  | .integer n => (definition f).type = .integer ∧ Numeral text n.toInt

/-- The text a field takes its value from: its default where the cell is empty. -/
def given (f : Field) (cell : Str) : Str := if cell = [] then (definition f).default.getD [] else cell

/-- What may stand in the column of a field. -/
structure Fits (f : Field) (cell : Str) : Prop where
  clean : Clean cell
  filled : (definition f).optional = false → cell ≠ []
  denotes : ∃ v, Denotes f (given f cell) v

/-- A header: every field at most once, the required ones at least once. -/
structure Header where
  columns : List Field
  distinct : columns.Nodup
  complete : ∀ f, (definition f).optional = false → f ∈ columns

/-- The names in a header. -/
def Header.names (h : Header) : List Str := h.columns.map fun f => (definition f).name

/-- A line below a header. -/
structure Line (h : Header) where
  cell : Field → Str
  fits : ∀ f ∈ h.columns, Fits f (cell f)

def Line.cells {h : Header} (l : Line h) : List Str := h.columns.map l.cell

/-- The text of a header and the lines below it. -/
def Header.text (h : Header) (lines : List (Line h)) : Str :=
  ((h.names :: lines.map Line.cells).map fun cells => commas cells ++ ['\n']).flatten

/-- A step has the values that the cells of a line denote, the defaults where a
    cell is empty or its column absent. -/
def Line.Denotes {h : Header} (l : Line h) (st : Step) : Prop :=
  ∀ f, StepColumns.Denotes f (given f (if f ∈ h.columns then l.cell f else [])) (st.fields f)

/-- Nothing stands in the last column of a line. -/
def Line.OpenEnded {h : Header} (l : Line h) : Prop := l.cells.getLast? = some []

theorem fieldValue_denotes {f : Field} {text : Str} {v : StepField} (denotes : Denotes f text v) :
    fieldValue (definition f).type text = .ok v := by
  cases v with
  | unknown => exact denotes.elim
  | string s =>
    obtain ⟨type,rfl⟩ := denotes
    rw [type]
    rfl
  | integer n =>
    obtain ⟨type,number⟩ := denotes
    rw [type,fieldValue,strtonum_numeral number (int64_bounds n).1 (int64_bounds n).2]
    simp only [Int64.ofInt_toInt]

/-- Every optional field starts with its default. -/
theorem initial_denotes {f : Field} (optional : (definition f).optional = true) :
    Denotes f (given f []) (initial.fields f) := by
  have zero : Numeral "0".toList (0 : Int64).toInt := numeral_decimal 0
  cases f with
  | delta => exact ⟨rfl,zero⟩
  | log => exact ⟨rfl,rfl⟩
  | skip => exact ⟨rfl,zero⟩
  | step | name | exit | duration | user | time => cases optional

/-- Cells under distinct columns set the fields of those that are not empty. -/
theorem assign_cells {cell : Field → Str} : ∀ (fs : List Field) (st : Step), fs.Nodup → (∀ f ∈ fs, Fits f (cell f)) →
    ∃ st', assign st (fs.map fun f => ((definition f).name,cell f)) = .ok st' ∧
      ∀ f, if f ∈ fs ∧ cell f ≠ [] then Denotes f (cell f) (st'.fields f) else st'.fields f = st.fields f
  | [],st,_,_ => ⟨st,rfl,fun f => by simp⟩
  | f :: fs,st,distinct,fits => by
    obtain ⟨fresh,distinct⟩ := List.nodup_cons.mp distinct
    by_cases empty : cell f = []
    · obtain ⟨st',run,fields⟩ := assign_cells fs st distinct fun g member => fits g (by simp [member])
      refine ⟨st',?_,?_⟩
      · rw [List.map_cons,assign,if_pos empty,run]
      · intro g
        have later := fields g
        by_cases same : g = f
        · simpa [same,empty] using later
        · simpa [same] using later
    · obtain ⟨v,denotes⟩ := (fits f (by simp)).denotes
      rw [given,if_neg empty] at denotes
      obtain ⟨st',run,fields⟩ := assign_cells fs ⟨Function.update st.fields f v⟩ distinct
        fun g member => fits g (by simp [member])
      refine ⟨st',?_,?_⟩
      · rw [List.map_cons,assign,if_neg empty,stepSetField_definition,fieldValue_denotes denotes]
        exact run
      · intro g
        have later := fields g
        by_cases same : g = f
        · subst same
          rw [if_neg (by simp [fresh])] at later
          change st'.fields g = Function.update st.fields g v g at later
          rw [if_pos ⟨by simp,empty⟩,later,Function.update_self]
          exact denotes
        · simpa [same,Function.update_of_ne same] using later

/-! ## Lines -/

variable {h : Header}

theorem columns_ne_nil (h : Header) : h.columns ≠ [] :=
  List.ne_nil_of_mem (h.complete .name rfl)

theorem names_known (h : Header) : ∀ c ∈ h.names, (fieldDefinitionFindByName c).isSome := by
  intro c member
  obtain ⟨f,_,rfl⟩ := List.mem_map.mp member
  simp [find_definition]

theorem zip_cells (l : Line h) :
    (h.names.drop 0).zip l.cells = h.columns.map fun f => ((definition f).name,l.cell f) := by
  rw [List.drop_zero,Header.names,Line.cells,List.zip_map']

/-- The cells of a line are assigned to the step it starts from. -/
theorem assign_line (l : Line h) :
    ∃ st, assign initial ((h.names.drop 0).zip l.cells) = .ok st ∧ l.Denotes st ∧ missing st = [] := by
  obtain ⟨st,run,fields⟩ := assign_cells h.columns initial h.distinct l.fits
  have denotes : l.Denotes st := by
    intro f
    have field := fields f
    by_cases member : f ∈ h.columns
    · by_cases empty : l.cell f = []
      · rw [if_neg (by simp [empty])] at field
        have optional : (definition f).optional = true := by
          by_contra required
          exact (l.fits f member).filled (by simpa using required) empty
        rw [if_pos member,empty,field]
        exact initial_denotes optional
      · rw [if_pos ⟨member,empty⟩] at field
        rw [if_pos member,given,if_neg empty]
        exact field
    · rw [if_neg (by simp [member])] at field
      have optional : (definition f).optional = true := by
        by_contra required
        exact member (h.complete f (by simpa using required))
      rw [if_neg member,field]
      exact initial_denotes optional
  refine ⟨st,(zip_cells l).symm ▸ run,denotes,?_⟩
  rw [missing_eq]
  simp only [List.map_eq_nil_iff,List.filter_eq_nil_iff]
  intro f _
  have set : st.fields f ≠ .unknown := by
    intro unset
    have value := denotes f
    rw [unset] at value
    exact value
  simp [stepFieldIsEmpty,set]

theorem parseRow_filled (l : Line h) {lno last : Nat} {tks : List (Token TokenType)} (positive : 0 < lno)
    (filled : ¬ l.OpenEnded) :
    ∃ st, stepsParseRow h.names ⟨lineTokens lno l.cells ++ tks,last⟩ = .ok (st,⟨tks,last⟩) ∧ l.Denotes st := by
  obtain ⟨st,assigned,denotes,complete⟩ := assign_line l
  have line := @parseRow_line h.names lno last tks positive (names_known h) l.cells 0 initial 0
    (by simp [Line.cells,Header.names]) (by simp [Line.cells,columns_ne_nil]) filled
  rw [assigned] at line
  refine ⟨st,?_,denotes⟩
  simp only [stepsParseRow,stepInit_eq,line,Except.map,stepValidate,complete,↓reduceIte]

/-- The newline where a value is expected ends the parse. -/
theorem parseRowLoop_blank {columns : List Str} {lno last : Nat} {tks : List (Token TokenType)} :
    ∀ (cells : List Str) (col : Nat) (st : Step) (seen : Nat), cells.getLast? = some [] →
      ∃ e, stepsParseRowLoop columns col st seen ⟨lineTokens lno cells ++ tks,last⟩ = .error e
  | [],_,_,_,blank => by simp at blank
  | [final],col,st,seen,blank => by
    have empty : final = [] := by simpa using blank
    rw [stepsParseRowLoop_eq]
    simp [lineTokens,cellTokens,empty,newline,lexerIf,lexerExpect]
  | cell :: next :: cells,col,st,seen,blank => by
    have tail := fun st seen => @parseRowLoop_blank columns lno last tks (next :: cells) (col+1) st seen
      (by simpa using blank)
    rw [stepsParseRowLoop_eq]
    by_cases empty : cell = []
    · simpa [lineTokens,cellTokens,empty,comma,lexerIf] using tail st seen
    · simp only [lineTokens,cellTokens,empty,↓reduceIte,value,comma,List.cons_append,List.nil_append,lexerIf,
        lexerExpect,reduceCtorEq]
      cases columns[col]? with
      | none => exact ⟨_,rfl⟩
      | some key =>
        dsimp only
        split
        · exact ⟨_,rfl⟩
        · cases stepSetField st key cell with
          | error e => exact ⟨_,rfl⟩
          | ok st' => exact tail st' _

theorem parseRow_blank (l : Line h) {lno last : Nat} {tks : List (Token TokenType)} (blank : l.OpenEnded) :
    ∃ e, stepsParseRow h.names ⟨lineTokens lno l.cells ++ tks,last⟩ = .error e := by
  obtain ⟨e,run⟩ := @parseRowLoop_blank h.names lno last tks l.cells 0 initial 0 blank
  exact ⟨e,by simp only [stepsParseRow,stepInit_eq,run]⟩

/-- The lines are read in turn up to the first one with nothing in its last column. -/
theorem parseRows_lines {last : Nat} : ∀ (lines : List (Line h)) (lno : Nat), 0 < lno →
    ((∀ l ∈ lines, ¬ l.OpenEnded) → ∃ steps,
      stepsParseRows h.names ⟨linesTokens lno (lines.map Line.cells),last⟩ = .ok steps ∧
        List.Forall₂ Line.Denotes lines steps) ∧
    ((∃ l ∈ lines, l.OpenEnded) → ∃ e,
      stepsParseRows h.names ⟨linesTokens lno (lines.map Line.cells),last⟩ = .error e)
  | [],lno,_ => by simp [stepsParseRows_eq,linesTokens,lexerPeekEof]
  | l :: lines,lno,positive => by
    obtain ⟨accepted,rejected⟩ := @parseRows_lines last lines (lno+1) (by omega)
    have more : lexerPeekEof ⟨lineTokens lno l.cells ++ linesTokens (lno+1) (lines.map Line.cells),last⟩ = false := by
      simp [lexerPeekEof,lineTokens_ne_nil]
    rw [stepsParseRows_eq,List.map_cons,linesTokens,more]
    by_cases blank : l.OpenEnded
    · obtain ⟨e,row⟩ := @parseRow_blank h l lno last (linesTokens (lno+1) (lines.map Line.cells)) blank
      rw [row]
      exact ⟨fun filled => absurd blank (filled l (by simp)),fun _ => ⟨e,rfl⟩⟩
    · obtain ⟨st,row,denotes⟩ :=
        @parseRow_filled h l lno last (linesTokens (lno+1) (lines.map Line.cells)) positive blank
      rw [row]
      constructor
      · intro filled
        obtain ⟨steps,run,read⟩ := accepted fun l member => filled l (by simp [member])
        exact ⟨st :: steps,by simp [run,Except.map],.cons denotes read⟩
      · rintro ⟨m,member,open_ended⟩
        have later : ∃ l ∈ lines, l.OpenEnded := by
          rcases List.mem_cons.mp member with rfl | more
          · exact absurd open_ended blank
          · exact ⟨m,more,open_ended⟩
        obtain ⟨e,run⟩ := rejected later
        exact ⟨e,by simp [run,Except.map]⟩

/-- Parsing starts behind the header. -/
theorem stepsParse_text (lines : List (Line h)) : stepsParse (h.text lines) =
    (stepsParseRows h.names ⟨linesTokens 2 (lines.map Line.cells),1+(lines.length+1)⟩).map fun steps =>
      ⟨h.names,steps⟩ := by
  have clean : ∀ cells ∈ h.names :: lines.map Line.cells, ∀ c ∈ cells, Clean c := by
    intro cells member c cell
    rcases List.mem_cons.mp member with rfl | line
    · obtain ⟨f,_,rfl⟩ := List.mem_map.mp cell
      exact name_clean f
    · obtain ⟨l,_,rfl⟩ := List.mem_map.mp line
      obtain ⟨f,column,rfl⟩ := List.mem_map.mp cell
      exact (l.fits f column).clean
  have lexed := lexed_lines (h.names :: lines.map Line.cells) 1 (by decide) clean
  rw [linesTokens,List.length_cons,List.length_map] at lexed
  refine stepsParse_header (by simp [Header.names,columns_ne_nil]) ?_ lexed
  intro n member
  obtain ⟨f,_,rfl⟩ := List.mem_map.mp member
  exact name_ne_nil f

/-- A comma at the end of a line makes the file unreadable. -/
theorem stepsParse_blank {lines : List (Line h)} (blank : ∃ l ∈ lines, l.OpenEnded) (sf : StepFile) :
    stepsParse (h.text lines) ≠ .ok sf := by
  obtain ⟨e,failed⟩ := (@parseRows_lines h (1+(lines.length+1)) lines 2 (by decide)).2 blank
  rw [stepsParse_text,failed]
  intro impossible
  cases impossible

/-- A file is read as what its cells denote exactly if no line of it has
    nothing in its last column. -/
theorem header_driven_iff (h : Header) (lines : List (Line h)) :
    (∃ steps, stepsParse (h.text lines) = .ok ⟨h.names,steps⟩ ∧ List.Forall₂ Line.Denotes lines steps) ↔
      ∀ l ∈ lines, ¬ l.OpenEnded := by
  constructor
  · rintro ⟨steps,run,_⟩ l member blank
    exact stepsParse_blank ⟨l,member,blank⟩ _ run
  · intro filled
    obtain ⟨steps,run,denotes⟩ := (@parseRows_lines h (1+(lines.length+1)) lines 2 (by decide)).1 filled
    exact ⟨steps,by rw [stepsParse_text,run]; rfl,denotes⟩

/-- The header that the writer gives to every file. -/
def written : Header := ⟨Field.all,by decide,fun f _ => by cases f <;> decide⟩

/-- The line `1,env,0,10,,,root,1666666666,`. -/
def unskipped : Line written where
  cell
    | .step => decimal 1
    | .name => ['e','n','v']
    | .exit => decimal 0
    | .duration => decimal 10
    | .user => ['r','o','o','t']
    | .time => decimal 1666666666
    | .delta | .log | .skip => []
  fits f _ := by
    have number : ∀ n : Int64, (definition f).type = .integer → Fits f (decimal n.toInt) := fun n type =>
      ⟨clean_decimal _,fun _ => decimal_ne_nil _,.integer n,type,by
        rw [given,if_neg (decimal_ne_nil _)]
        exact numeral_decimal _⟩
    have optional : (definition f).optional = true → Fits f [] := fun optional =>
      ⟨by decide,fun required => absurd required (by simp [optional]),_,initial_denotes optional⟩
    cases f with
    | step => exact number 1 rfl
    | exit => exact number 0 rfl
    | duration => exact number 10 rfl
    | time => exact number 1666666666 rfl
    | name => exact ⟨by decide,fun _ => by decide,.string _,rfl,rfl⟩
    | user => exact ⟨by decide,fun _ => by decide,.string _,rfl,rfl⟩
    | delta => exact optional rfl
    | log => exact optional rfl
    | skip => exact optional rfl

theorem header_driven_unskipped : ¬ ∃ steps, stepsParse (written.text [unskipped]) = .ok ⟨written.names,steps⟩ ∧
    List.Forall₂ Line.Denotes [unskipped] steps := by
  rintro ⟨steps,run,_⟩
  exact stepsParse_blank ⟨unskipped,by simp,rfl⟩ _ run

end Robsd.StepColumns
