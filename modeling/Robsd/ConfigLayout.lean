import Mathlib.Data.List.Forall2
import Robsd.ConfigLexer

/-!
Configuration text as a list of lexemes with spaces and comments between them,
and what the lexer makes of it: one token for each lexeme, whatever the layout.
-/
namespace Robsd.ConfigLayout
open Robsd.Strings
open Robsd.Lexer
open Robsd.Modes
open Robsd.ConfigLexer

/-- What a configuration is written in. -/
inductive Lexeme where
  | word (w : Str)
  | integer (digits : Str)
  | string (s : Str)
  | lbrace
  | rbrace
  deriving DecidableEq, Repr

/-- A number in decimal digits. -/
def number (n : Nat) : Lexeme := .integer (Nat.toDigits 10 n)

/-- The largest `int`. -/
def intMax : Nat := 2147483647

def Lexeme.text : Lexeme → Str
  | .word w => w
  | .integer digits => digits
  | .string s => '"' :: s ++ ['"']
  | .lbrace => ['{']
  | .rbrace => ['}']

/-- The lexemes the lexer has no complaint about. -/
def Lexeme.Plain : Lexeme → Prop
  | .word w => w.head?.any islower = true ∧ w.all isWord = true
  | .integer digits => digits ≠ [] ∧ (∀ c ∈ digits, isdigit c = true) ∧ Nat.ofDigitChars 10 digits 0 ≤ intMax
  | .string s => s ≠ [] ∧ '"' ∉ s ∧ nul ∉ s
  | .lbrace => True
  | .rbrace => True

instance : DecidablePred Lexeme.Plain
  | .word _ => inferInstanceAs (Decidable (_ ∧ _))
  | .integer _ => inferInstanceAs (Decidable (_ ∧ _ ∧ _))
  | .string _ => inferInstanceAs (Decidable (_ ∧ _ ∧ _))
  | .lbrace => .isTrue trivial
  | .rbrace => .isTrue trivial

/-- The token for a lexeme. -/
def Lexeme.token (mode : Mode) (lno : Nat) : Lexeme → Token TokenType
  | .word w => wordToken mode lno w
  | .integer digits => { type := .integer, lno := lno, int := Nat.ofDigitChars 10 digits 0 }
  | .string s => { type := .string, lno := lno, str := s }
  | .lbrace => { type := .lbrace, lno := lno }
  | .rbrace => { type := .rbrace, lno := lno }

/-- Spaces and comments, each of which a newline ends. -/
inductive Separator : Str → Prop
  | nil : Separator []
  | space {c : Char} {sep : Str} (blank : isspace c = true) (more : Separator sep) : Separator (c :: sep)
  | comment {text sep : Str} (single : '\n' ∉ text) (noNul : nul ∉ text) (more : Separator sep) :
      Separator ('#' :: text ++ '\n' :: sep)

/-- Text that starts with a separator and has another one behind each lexeme. -/
def render (first : Str) (items : List (Lexeme × Str)) : Str := first ++ items.flatMap fun i => i.1.text ++ i.2

/-- The layout of a text: separators that are there. -/
structure Layout (first : Str) (items : List (Lexeme × Str)) : Prop where
  first : Separator first
  behind : ∀ i ∈ items, Separator i.2 ∧ i.2 ≠ []

/-- Lexemes with a space behind each. -/
def spaced (ls : List Lexeme) : List (Lexeme × Str) := ls.map fun l => (l,[' '])

theorem layout_spaced (ls : List Lexeme) : Layout [] (spaced ls) := by
  refine ⟨.nil,?_⟩
  intro i member
  obtain ⟨l,_,rfl⟩ := List.mem_map.mp member
  exact ⟨.space (by decide) .nil,List.cons_ne_nil _ _⟩

theorem spaced_fst (ls : List Lexeme) : (spaced ls).map Prod.fst = ls := by
  simp [spaced,Function.comp_def]

/-- A token stands for a lexeme, on whatever line it is. -/
def Stands (mode : Mode) (l : Lexeme) (tk : Token TokenType) : Prop := ∃ lno, tk = l.token mode lno

/-! ## Numbers -/

theorem i32_of_bounds {n : Int} (low : -2147483648 ≤ n) (high : n ≤ 2147483647) : i32 n = n := by
  refine Int.bmod_eq_of_le ?_ ?_ <;> simp only [Nat.reducePow] <;> omega

theorem ofDigitChars_le (digits : Str) (n : Nat) : n ≤ Nat.ofDigitChars 10 digits n := by
  induction digits generalizing n with
  | nil => simp
  | cons c cs ih =>
    rw [Nat.ofDigitChars_cons]
    have := ih (10*n+(c.toNat- '0'.toNat))
    omega

/-- Digits are accumulated without overflow as long as the number fits. -/
theorem addDigit_fits : ∀ (digits : Str) (n : Nat), Nat.ofDigitChars 10 digits n ≤ intMax →
    digits.foldl addDigit (false,(n : Int)) = (false,(Nat.ofDigitChars 10 digits n : Int))
  | [],n,_ => by simp
  | c :: cs,n,fits => by
    rw [Nat.ofDigitChars_cons] at fits ⊢
    have bound := ofDigitChars_le cs (10*n+(c.toNat- '0'.toNat))
    have small : 10*n+(c.toNat- '0'.toNat) ≤ intMax := by omega
    unfold intMax at small
    have mul : i32 ((n : Int)*10) = (n : Int)*10 := i32_of_bounds (by omega) (by omega)
    have add : i32 ((n : Int)*10+((c.toNat- '0'.toNat : Nat) : Int)) =
      (n : Int)*10+((c.toNat- '0'.toNat : Nat) : Int) :=
      i32_of_bounds (by omega) (by omega)
    have value : (n : Int)*10+((c.toNat- '0'.toNat : Nat) : Int) = ((10*n+(c.toNat- '0'.toNat) : Nat) : Int) := by omega
    have first : addDigit (false,(n : Int)) c = (false,((10*n+(c.toNat- '0'.toNat) : Nat) : Int)) := by
      simp only [addDigit,mul,add,ne_eq,not_true_eq_false,↓reduceIte]
      rw [value]
    rw [List.foldl_cons,first]
    exact addDigit_fits cs _ fits

theorem number_plain {n : Nat} (fits : n ≤ intMax) : (number n).Plain := by
  refine ⟨Nat.toDigits_ne_nil,?_,?_⟩
  · intro c member
    rw [isdigit_eq]
    exact Nat.isDigit_of_mem_toDigits (by decide) (by decide) member
  · rw [Nat.ofDigitChars_ten_toDigits]
    exact fits

/-! ## Characters -/

theorem newline_count (c : Char) (s : Str) (lno : Nat) :
    (if c = '\n' then lno+1 else lno)+s.count '\n' = lno+(c :: s).count '\n' := by
  by_cases newline : c = '\n'
  · simp only [newline,↓reduceIte,List.count_cons_self]
    omega
  · simp [newline,List.count_cons_of_ne]

theorem lexerUngetc_getc {c : Char} {rest : Str} {lno : Nat} (positive : 0 < lno) :
    lexerUngetc c ⟨rest,if c = '\n' then lno+1 else lno,0⟩ = ⟨c :: rest,lno,0⟩ := by
  by_cases newline : c = '\n'
  · simp [lexerUngetc,newline,positive]
  · simp [lexerUngetc,newline]

/-- What is collected ends where the first other character stands. -/
theorem lexerWhile_stop {p : Char → Bool} {stop : Char} {rest : Str} {lno : Nat} (stops : p stop = false)
    (newline : p '\n' = false) : ∀ (cs bf : Str) (c : Char), p c = true → (∀ d ∈ cs, p d = true) →
      lexerWhile p bf c ⟨cs ++ stop :: rest,lno,0⟩ =
        (bf ++ c :: cs,stop,⟨rest,if stop = '\n' then lno+1 else lno,0⟩)
  | [],bf,c,first,_ => by
    rw [lexerWhile,if_pos first]
    simp only [List.nil_append,lexerGetc_cons]
    rw [lexerWhile,if_neg (by simp [stops])]
  | d :: cs,bf,c,first,all => by
    have inside : d ≠ '\n' := by
      rintro rfl
      have := all '\n' (by simp)
      rw [newline] at this
      cases this
    have later := (@lexerWhile_stop _ _ rest lno) stops newline cs (bf ++ [c]) d (all d (by simp))
      fun e member => all e (by simp [member])
    rw [lexerWhile,if_pos first]
    simp only [List.cons_append,lexerGetc_cons,inside,↓reduceIte]
    rw [later]
    simp

/-- A string ends at its closing quote. -/
theorem lexerString_close {rest : Str} : ∀ (s bf : Str) (lno : Nat), '"' ∉ s → nul ∉ s →
    lexerString bf ⟨s ++ '"' :: rest,lno,0⟩ = some (bf ++ s,⟨rest,lno+s.count '\n',0⟩)
  | [],bf,lno,_,_ => by
    rw [lexerString]
    simp [show '"' ≠ nul from by decide]
  | c :: s,bf,lno,noQuote,noNul => by
    simp only [List.mem_cons,not_or] at noQuote noNul
    have later := fun lno => (@lexerString_close rest) s (bf ++ [c]) lno noQuote.2 noNul.2
    rw [lexerString]
    simp only [List.cons_append,lexerGetc_cons,Ne.symm noNul.1,Ne.symm noQuote.1,↓reduceIte]
    rw [later,newline_count]
    simp

/-! ## Separators -/

theorem skip_eq (lx : Input) : skip lx =
    if (skipSpaces lx).1 = '#' then skip (skipComment (skipSpaces lx).1 (skipSpaces lx).2) else skipSpaces lx := by
  rw [skip]
  split
  next ch next spaces =>
  rw [spaces]
  split <;> simp_all

theorem skipSpaces_space {c : Char} {rest : Str} {lno : Nat} (blank : isspace c = true) :
    skipSpaces ⟨c :: rest,lno,0⟩ = skipSpaces ⟨rest,if c = '\n' then lno+1 else lno,0⟩ := by
  rw [skipSpaces]
  simp [blank]

theorem skipSpaces_char {c : Char} {rest : Str} {lno : Nat} (visible : isspace c = false) :
    skipSpaces ⟨c :: rest,lno,0⟩ = (c,⟨rest,lno,0⟩) := by
  have newline : c ≠ '\n' := by
    rintro rfl
    exact absurd visible (by decide)
  rw [skipSpaces]
  simp [visible,newline]

theorem skipComment_text {rest : Str} : ∀ (text : Str) (c : Char) (lno : Nat), c ≠ '\n' → c ≠ nul →
    '\n' ∉ text → nul ∉ text → skipComment c ⟨text ++ '\n' :: rest,lno,0⟩ = ⟨rest,lno+1,0⟩
  | [],c,lno,noNewline,noNul,_,_ => by
    rw [skipComment,if_neg (by simp [noNewline,noNul])]
    simp only [List.nil_append,lexerGetc_cons]
    rw [skipComment]
    simp
  | d :: text,c,lno,noNewline,noNul,single,whole => by
    simp only [List.mem_cons,not_or] at single whole
    have later := (@skipComment_text rest) text d lno (Ne.symm single.1) (Ne.symm whole.1) single.2 whole.2
    rw [skipComment,if_neg (by simp [noNewline,noNul])]
    simp only [List.cons_append,lexerGetc_cons,Ne.symm single.1,↓reduceIte]
    exact later

/-- Separators are skipped. -/
theorem skip_separator {sep : Str} (separates : Separator sep) (rest : Str) (lno : Nat) :
    skip ⟨sep ++ rest,lno,0⟩ = skip ⟨rest,lno+sep.count '\n',0⟩ := by
  induction separates generalizing lno with
  | nil => simp
  | @space c sep blank _ ih =>
    rw [List.cons_append,skip_eq,skipSpaces_space blank,← skip_eq,ih,newline_count]
  | @comment text sep single noNul _ ih =>
    have shape : '#' :: text ++ '\n' :: sep ++ rest = '#' :: (text ++ '\n' :: (sep ++ rest)) := by simp
    have lines : ('#' :: text ++ '\n' :: sep).count '\n' = 1+sep.count '\n' := by
      simp [List.count_append,List.count_eq_zero.mpr single,Nat.add_comm]
    rw [shape,skip_eq,skipSpaces_char (by decide),if_pos rfl,
      skipComment_text text '#' lno (by decide) (by decide) single noNul,ih,lines,Nat.add_assoc]

/-- The character behind the separators is the first one of a token. -/
theorem skip_char {c : Char} {rest : Str} {lno : Nat} (visible : isspace c = false) (noComment : c ≠ '#') :
    skip ⟨c :: rest,lno,0⟩ = (c,⟨rest,lno,0⟩) := by
  rw [skip_eq,skipSpaces_char visible,if_neg noComment]

theorem skip_nil (lno : Nat) : skip ⟨[],lno,0⟩ = (nul,⟨[],lno,1⟩) := by
  have spaces : skipSpaces ⟨[],lno,0⟩ = (nul,⟨[],lno,1⟩) := by
    rw [skipSpaces]
    simp [show isspace nul = false from by decide]
  rw [skip_eq,spaces,if_neg (show nul ≠ '#' from by decide)]

/-- A separator that is there starts with a character that belongs to no word. -/
theorem separator_cons {sep : Str} (separates : Separator sep) (nonempty : sep ≠ []) :
    ∃ c rest, sep = c :: rest ∧ isWord c = false ∧ isdigit c = false := by
  cases separates with
  | nil => exact absurd rfl nonempty
  | @space c rest blank _ =>
    refine ⟨c,rest,rfl,?_⟩
    simp only [isspace,Bool.or_eq_true,decide_eq_true_eq] at blank
    rcases blank with ((((rfl | rfl) | rfl) | rfl) | rfl) | rfl <;> decide
  | @comment text rest _ _ _ => exact ⟨'#',text ++ '\n' :: rest,rfl,by decide,by decide⟩

/-! ## Tokens -/

theorem not_islower_of_isdigit {c : Char} (digit : isdigit c = true) : islower c = false := by
  simp only [isdigit,Bool.and_eq_true,decide_eq_true_eq] at digit
  have above : ¬ 'a' ≤ c := fun low => absurd (Char.le_trans low digit.2) (by decide)
  simp [islower,above]

theorem visible_of_islower {c : Char} (lower : islower c = true) : isspace c = false ∧ c ≠ '#' ∧ c ≠ nul := by
  simp only [islower,Bool.and_eq_true,decide_eq_true_eq] at lower
  refine ⟨?_,?_,?_⟩
  · simp only [isspace,Bool.or_eq_false_iff,decide_eq_false_iff_not]
    refine ⟨⟨⟨⟨⟨?_,?_⟩,?_⟩,?_⟩,?_⟩,?_⟩ <;> rintro rfl <;> revert lower <;> decide
  · rintro rfl; revert lower; decide
  · rintro rfl; revert lower; decide

theorem visible_of_isdigit {c : Char} (digit : isdigit c = true) : c ≠ '#' ∧ c ≠ nul := by
  constructor <;> rintro rfl <;> revert digit <;> decide

/-- One token is read for a lexeme, up to the separator behind it. -/
theorem configLexerRead_lexeme {mode : Mode} {l : Lexeme} (plain : l.Plain) {first sep rest : Str} {lno : Nat}
    {errors : List (Nat × Problem)} (positive : 0 < lno) (before : Separator first) (after : Separator sep)
    (there : sep ≠ []) : ∃ here lno', 0 < lno' ∧
      configLexerRead mode ⟨⟨first ++ (l.text ++ (sep ++ rest)),lno,0⟩,errors⟩ =
        .ok (.token (l.token mode here),⟨⟨sep ++ rest,lno',0⟩,errors⟩) := by
  obtain ⟨stop,tail,behind,noWord,noDigit⟩ := separator_cons after there
  have here : 0 < lno+first.count '\n' := by omega
  cases l with
  | word w =>
    obtain ⟨start,all⟩ := plain
    obtain ⟨c,cs,rfl⟩ : ∃ c cs, w = c :: cs := List.exists_cons_of_ne_nil (by rintro rfl; simp at start)
    have lower : islower c = true := by simpa using start
    replace all := List.all_eq_true.mp all
    obtain ⟨visible,noComment,noNul⟩ := visible_of_islower lower
    refine ⟨lno+first.count '\n',lno+first.count '\n',here,?_⟩
    have collected := (@lexerWhile_stop _ _ (tail ++ rest) (lno+first.count '\n')) noWord (by decide) cs [] c
      (all c (by simp)) fun d member => all d (by simp [member])
    simp only [configLexerRead,skip_separator before,Lexeme.text,List.cons_append,behind]
    rw [skip_char visible noComment]
    simp only [noNul,lower,↓reduceIte,collected,lexerUngetc_getc here,List.nil_append,Lexeme.token]
  | integer digits =>
    obtain ⟨nonempty,all,fits⟩ := plain
    cases digits with
    | nil => exact absurd rfl nonempty
    | cons c cs =>
      have digit := all c (by simp)
      obtain ⟨noComment,noNul⟩ := visible_of_isdigit digit
      refine ⟨lno+first.count '\n',lno+first.count '\n',here,?_⟩
      have collected := (@lexerWhile_stop _ _ (tail ++ rest) (lno+first.count '\n')) noDigit (by decide) cs [] c
        digit fun d member => all d (by simp [member])
      have value := addDigit_fits (c :: cs) 0 fits
      simp only [configLexerRead,skip_separator before,Lexeme.text,List.cons_append,behind]
      rw [skip_char (isspace_of_isdigit digit) noComment]
      simp only [noNul,not_islower_of_isdigit digit,digit,Bool.false_eq_true,↓reduceIte,collected,
        lexerUngetc_getc here,List.nil_append,Lexeme.token]
      rw [show (0 : Int) = ((0 : Nat) : Int) from rfl,value]
      simp
  | string s =>
    obtain ⟨nonempty,noQuote,noNul⟩ := plain
    refine ⟨lno+first.count '\n',lno+first.count '\n'+s.count '\n',by omega,?_⟩
    have collected := (@lexerString_close (sep ++ rest)) s [] (lno+first.count '\n') noQuote noNul
    simp only [configLexerRead,skip_separator before,Lexeme.text,List.cons_append,List.append_assoc,List.nil_append]
    rw [skip_char (by decide) (by decide)]
    simp only [collected,List.nil_append,nonempty,↓reduceIte,Lexeme.token,show '"' ≠ nul from by decide,
      show islower '"' = false from by decide,show isdigit '"' = false from by decide,Bool.false_eq_true]
  | lbrace =>
    refine ⟨lno+first.count '\n',lno+first.count '\n',here,?_⟩
    simp only [configLexerRead,skip_separator before,Lexeme.text,List.cons_append,List.nil_append]
    rw [skip_char (by decide) (by decide)]
    cases mode <;> rfl
  | rbrace =>
    refine ⟨lno+first.count '\n',lno+first.count '\n',here,?_⟩
    simp only [configLexerRead,skip_separator before,Lexeme.text,List.cons_append,List.nil_append]
    rw [skip_char (by decide) (by decide)]
    cases mode <;> rfl

/-- The lexer gives the tokens that stand for the lexemes and reports nothing,
    whatever the spaces and comments between them. -/
theorem lexerAlloc_render {mode : Mode} {errors : List (Nat × Problem)} :
    ∀ (items : List (Lexeme × Str)) (first : Str) (lno : Nat), 0 < lno → Layout first items →
      (∀ i ∈ items, i.1.Plain) →
      ∃ tks last s, lexerAlloc (configReader mode) ⟨⟨render first items,lno,0⟩,errors⟩ = .ok (⟨tks,last⟩,s) ∧
        s.errors = errors ∧ List.Forall₂ (Stands mode) (items.map Prod.fst) tks
  | [],first,lno,_,layout,_ => by
    have read : (configReader mode).read ⟨⟨render first [],lno,0⟩,errors⟩ =
        .ok (.eof (lno+first.count '\n'),⟨⟨[],lno+first.count '\n',1⟩,errors⟩) := by
      simp only [configReader,configLexerRead,render,List.flatMap_nil,skip_separator layout.first,skip_nil,↓reduceIte]
    exact ⟨[],_,_,lexerAlloc_eof read,rfl,.nil⟩
  | (l,sep) :: items,first,lno,positive,layout,plain => by
    obtain ⟨after,there⟩ := layout.behind (l,sep) (by simp)
    obtain ⟨here,lno',positive',read⟩ := configLexerRead_lexeme
      (plain (l,sep) (by simp)) positive layout.first after there
    have rest : Layout sep items := ⟨after,fun i member => layout.behind i (by simp [member])⟩
    obtain ⟨tks,last,s,run,quiet,stand⟩ := lexerAlloc_render items sep lno' positive'
      rest fun i member => plain i (by simp [member])
    have shape : render first ((l,sep) :: items) = first ++
      (l.text ++ (sep ++ items.flatMap fun i => i.1.text ++ i.2)) := by
      simp [render]
    refine ⟨l.token mode here :: tks,last,s,?_,quiet,.cons ⟨here,rfl⟩ stand⟩
    rw [shape,lexerAlloc_token (r := configReader mode) read]
    change (lexerAlloc (configReader mode) ⟨⟨render sep items,lno',0⟩,errors⟩).map _ = _
    rw [run]
    rfl

/-! ## Meaning of lexemes -/

/-- What a lexeme means in a mode: the type, the text and the number of its token. -/
inductive Denotes (mode : Mode) : Lexeme → TokenType → Str → Int → Prop
  | yes : Denotes mode (.word "yes".toList) .boolean [] 1
  | no : Denotes mode (.word "no".toList) .boolean [] 0
  | reserved {w : Str} {type : TokenType} {only : Option Mode} (row : (w,type,only) ∈ tokenTypes)
      (here : only = none ∨ only = some mode) (symbol : type ≠ .yes ∧ type ≠ .no) : Denotes mode (.word w) type [] 0
  | keyword {w : Str} (free : ∀ row ∈ tokenTypes, row.1 = w → row.2.2 ≠ none ∧ row.2.2 ≠ some mode) :
      Denotes mode (.word w) .keyword w 0
  | integer {digits : Str} : Denotes mode (.integer digits) .integer [] (Nat.ofDigitChars 10 digits 0)
  | string {s : Str} : Denotes mode (.string s) .string s 0
  | lbrace : Denotes mode .lbrace .lbrace [] 0
  | rbrace : Denotes mode .rbrace .rbrace [] 0

/-- No word stands for the type of the others, and the answers have one word each. -/
theorem tokenTypes_table : ∀ row ∈ tokenTypes, row.2.1 ≠ .keyword ∧
    (row.2.1 = .yes → row.1 = "yes".toList) ∧ (row.2.1 = .no → row.1 = "no".toList) := by decide

theorem wordToken_denotes (mode : Mode) (lno : Nat) (w : Str) :
    Denotes mode (.word w) (wordToken mode lno w).type (wordToken mode lno w).str (wordToken mode lno w).int := by
  cases found : tokenTypes.find? fun row => row.1 = w ∧ (row.2.2 = none ∨ row.2.2 = some mode) with
  | none =>
    have free : ∀ row ∈ tokenTypes, row.1 = w → row.2.2 ≠ none ∧ row.2.2 ≠ some mode := by
      intro row member same
      have other := List.find?_eq_none.mp found row member
      simpa [same] using other
    have type : tokenTypeLookup mode w .keyword = .keyword := by rw [tokenTypeLookup,found]; rfl
    rw [wordToken,type]
    exact .keyword free
  | some row =>
    obtain ⟨w',type,only⟩ := row
    have member := List.mem_of_find?_eq_some found
    obtain ⟨rfl,here⟩ : w' = w ∧ (only = none ∨ only = some mode) := by simpa using List.find?_some found
    obtain ⟨notKeyword,yes,no⟩ := tokenTypes_table _ member
    have looked : tokenTypeLookup mode w' .keyword = type := by rw [tokenTypeLookup,found]; rfl
    by_cases isYes : type = .yes
    · have same : w' = "yes".toList := yes isYes
      rw [wordToken,looked,isYes,same]
      exact .yes
    by_cases isNo : type = .no
    · have same : w' = "no".toList := no isNo
      rw [wordToken,looked,isNo,same]
      exact .no
    have reserved : Denotes mode (.word w') type [] 0 := .reserved member here ⟨isYes,isNo⟩
    rw [wordToken,looked]
    cases type with
    | keyword => exact absurd rfl notKeyword
    | yes => exact absurd rfl isYes
    | no => exact absurd rfl isNo
    | _ => exact reserved

theorem stands_denotes {mode : Mode} {l : Lexeme} {tk : Token TokenType} (stands : Stands mode l tk) :
    Denotes mode l tk.type tk.str tk.int := by
  obtain ⟨lno,rfl⟩ := stands
  cases l with
  | word w => exact wordToken_denotes mode lno w
  | integer digits => exact .integer
  | string s => exact .string
  | lbrace => exact .lbrace
  | rbrace => exact .rbrace

/-- The lexer reads what the lexemes of a text mean up to the end of the file,
    whatever the layout. -/
theorem lexer_round_trip (mode : Mode) (first : Str) (items : List (Lexeme × Str)) (layout : Layout first items)
    (plain : ∀ i ∈ items, i.1.Plain) :
    ∃ tks last s, lexerAlloc (configReader mode) ⟨.start (render first items),[]⟩ = .ok (⟨tks,last⟩,s) ∧
      s.errors = [] ∧
      List.Forall₂ (fun l tk => Denotes mode l tk.type tk.str tk.int) (items.map Prod.fst) tks := by
  obtain ⟨tks,last,s,run,quiet,stand⟩ :=
    (@lexerAlloc_render mode []) items first 1 Nat.one_pos layout plain
  exact ⟨tks,last,s,run,quiet,stand.imp fun _ _ => stands_denotes⟩

/-- The text `kernel 1`, between a comment and a newline. -/
theorem lexer_round_trip_kernel : ∃ tks last s,
    lexerAlloc (configReader .canvas)
      ⟨.start (render ['#','\n'] [(.word "kernel".toList,[' ']),(number 1,['\n'])]),[]⟩ =
      .ok (⟨tks,last⟩,s) ∧ s.errors = [] ∧
      List.Forall₂ (fun l tk => Denotes .canvas l tk.type tk.str tk.int) [.word "kernel".toList,number 1] tks :=
  lexer_round_trip .canvas ['#','\n'] [(.word "kernel".toList,[' ']),(number 1,['\n'])]
    ⟨@Separator.comment [] [] (by simp) (by simp) .nil,by
      simp only [List.mem_cons,List.not_mem_nil,or_false,forall_eq_or_imp,forall_eq]
      exact ⟨⟨.space (by decide) .nil,by simp⟩,⟨.space (by decide) .nil,by simp⟩⟩⟩
    (by
      simp only [List.mem_cons,List.not_mem_nil,or_false,forall_eq_or_imp,forall_eq]
      exact ⟨by decide,number_plain (by decide)⟩)

end Robsd.ConfigLayout
