import Mathlib.Data.List.Forall2
import Robsd.ConfigLayout
import Robsd.ConfigParse

/-!
What the functions that parse a configuration make of the tokens that stand for
the lexemes they want: they take exactly those tokens and report nothing.
-/
namespace Robsd.ConfigTokens
open Robsd.Strings
open Robsd.Lexer
open Robsd.Modes
open Robsd.ConfigLexer (TokenType tokenTypeLookup wordToken i32)
open Robsd.ConfigLayout
open Robsd.Configuration
open Robsd.ConfigParse
open Robsd.Interpolate (interpolateStr interpolate_plain)
variable {mode : Mode}

/-- The state in which other tokens are ahead. -/
def past (s : ParseState) (rest : List (Token TokenType)) (lno : Nat) : ParseState :=
  { s with lx := { s.lx with pending := rest }, last := lno }

@[simp] theorem past_past (s : ParseState) (rest rest' : List (Token TokenType)) (lno lno' : Nat) :
    past (past s rest lno) rest' lno' = past s rest' lno' := rfl

@[simp] theorem past_pending (s : ParseState) (rest : List (Token TokenType)) (lno : Nat) :
    (past s rest lno).lx.pending = rest := rfl

@[simp] theorem past_cf (s : ParseState) (rest : List (Token TokenType)) (lno : Nat) :
    (past s rest lno).cf = s.cf := rfl

@[simp] theorem past_err (s : ParseState) (rest : List (Token TokenType)) (lno : Nat) :
    (past s rest lno).err = s.err := rfl

/-- The tokens of a text with lexemes ahead of others. -/
theorem stands_append {as bs : List Lexeme} {tks : List (Token TokenType)}
    (stand : List.Forall₂ (Stands mode) (as ++ bs) tks) :
    ∃ us vs, tks = us ++ vs ∧ List.Forall₂ (Stands mode) as us ∧ List.Forall₂ (Stands mode) bs vs := by
  induction as generalizing tks with
  | nil => exact ⟨[],tks,rfl,.nil,stand⟩
  | cons a as ih =>
    rw [List.cons_append,List.forall₂_cons_left_iff] at stand
    obtain ⟨tk,tks,here,later,rfl⟩ := stand
    obtain ⟨us,vs,rfl,first,second⟩ := ih later
    exact ⟨tk :: us,vs,rfl,.cons here first,second⟩

/-! ## Single tokens -/

theorem expect_cons {s : ParseState} {tk : Token TokenType} {rest : List (Token TokenType)}
    (pending : s.lx.pending = tk :: rest) : s.expect tk.type = (some tk,past s rest tk.lno) := by
  simp [ParseState.expect,lexerExpect,pending,past]

theorem expect_string {s : ParseState} {str : Str} {tk : Token TokenType} {rest : List (Token TokenType)}
    (stands : Stands mode (.string str) tk) (pending : s.lx.pending = tk :: rest) :
    s.expect .string = (some tk,past s rest tk.lno) ∧ tk.str = str := by
  obtain ⟨lno,rfl⟩ := stands
  exact ⟨expect_cons pending,rfl⟩

theorem expect_integer {s : ParseState} {n : Nat} {tk : Token TokenType} {rest : List (Token TokenType)}
    (stands : Stands mode (number n) tk) (pending : s.lx.pending = tk :: rest) :
    s.expect .integer = (some tk,past s rest tk.lno) ∧ tk.int = n := by
  obtain ⟨lno,rfl⟩ := stands
  refine ⟨expect_cons pending,?_⟩
  simp [number,Lexeme.token,Nat.ofDigitChars_ten_toDigits]

/-- A word that is looked up as a token of its own is one. -/
theorem type_word {w : Str} {type : TokenType} {tk : Token TokenType} (stands : Stands mode (.word w) tk)
    (known : tokenTypeLookup mode w .keyword = type) (own : type ≠ .yes ∧ type ≠ .no) : tk.type = type := by
  obtain ⟨lno,rfl⟩ := stands
  simp only [Lexeme.token,wordToken,known]
  split <;> simp_all

theorem keyword_word {w : Str} {tk : Token TokenType} (stands : Stands mode (.word w) tk)
    (known : tokenTypeLookup mode w .keyword = .keyword) : tk.type = .keyword ∧ tk.str = w := by
  obtain ⟨lno,rfl⟩ := stands
  simp [Lexeme.token,wordToken,known]

theorem peek_cons {s : ParseState} {tk : Token TokenType} {rest : List (Token TokenType)}
    (pending : s.lx.pending = tk :: rest) : s.peek = some tk.type := by
  simp [ParseState.peek,pending]

theorem advance_cons {s : ParseState} {tk : Token TokenType} {rest : List (Token TokenType)}
    (pending : s.lx.pending = tk :: rest) : s.advance = past s rest tk.lno := by
  simp [ParseState.advance,pending,past]

/-! ## Lists and timeouts -/

/-- The lexemes of a list. -/
def braces (xs : List Str) : List Lexeme := .lbrace :: xs.map .string ++ [.rbrace]

theorem configParseStrings_eq (xs : List Str) (s : ParseState) : configParseStrings xs s =
    if s.peek = some .rbrace then (.append (.list xs),s.advance)
    else match (s.expect .string).1 with
      | none => (.fatal,(s.expect .string).2)
      | some tk => configParseStrings (xs ++ [tk.str]) (s.expect .string).2 := by
  rw [configParseStrings]
  split
  · rfl
  · split <;> simp_all

theorem configParseStrings_stands : ∀ (xs ys : List Str) {s : ParseState} {tks rest : List (Token TokenType)},
    List.Forall₂ (Stands mode) (xs.map .string ++ [.rbrace]) tks → s.lx.pending = tks ++ rest →
      ∃ lno, configParseStrings ys s = (.append (.list (ys ++ xs)),past s rest lno)
  | [],ys,s,tks,rest,stand,pending => by
    simp only [List.map_nil,List.nil_append,List.forall₂_cons_left_iff,List.forall₂_nil_left_iff] at stand
    obtain ⟨tk,_,⟨lno,rfl⟩,rfl,rfl⟩ := stand
    have closed : s.peek = some .rbrace := peek_cons pending
    refine ⟨lno,?_⟩
    rw [configParseStrings_eq,if_pos closed,advance_cons pending,List.append_nil]
    rfl
  | x :: xs,ys,s,tks,rest,stand,pending => by
    simp only [List.map_cons,List.cons_append,List.forall₂_cons_left_iff] at stand
    obtain ⟨tk,tks,string,stand,rfl⟩ := stand
    obtain ⟨got,str⟩ := expect_string string pending
    obtain ⟨lno,run⟩ := configParseStrings_stands xs (ys ++ [x]) (s := past s (tks ++ rest) tk.lno) stand rfl
    have type : tk.type = .string := by
      obtain ⟨_,rfl⟩ := string
      rfl
    refine ⟨lno,?_⟩
    rw [configParseStrings_eq,if_neg (by rw [peek_cons pending,type]; simp),got]
    simpa [str] using run

theorem configParseList_stands {xs : List Str} {s : ParseState} {tks rest : List (Token TokenType)}
    (stand : List.Forall₂ (Stands mode) (braces xs) tks) (pending : s.lx.pending = tks ++ rest) :
    ∃ lno, configParseList s = (.append (.list xs),past s rest lno) := by
  simp only [braces,List.cons_append,List.forall₂_cons_left_iff] at stand
  obtain ⟨_,tks,⟨lno,rfl⟩,stand,rfl⟩ := stand
  have opened : s.expect .lbrace = _ := expect_cons pending
  obtain ⟨last,run⟩ := configParseStrings_stands xs [] (s := past s (tks ++ rest) lno) stand rfl
  exact ⟨last,by simpa [configParseList,opened,Lexeme.token] using run⟩

/-- A unit of time. -/
inductive TimeUnit where
  | seconds
  | minutes
  | hours
  deriving DecidableEq, Repr

def TimeUnit.word : TimeUnit → Str
  | .seconds => "s".toList
  | .minutes => "m".toList
  | .hours => "h".toList

/-- The seconds in a unit. -/
def TimeUnit.scalar : TimeUnit → Nat
  | .seconds => 1
  | .minutes => 60
  | .hours => 3600

theorem i64_of_fits {host : Host} (little : host.bigEndian = false) {n : Nat} (fits : n ≤ intMax) : host.i64 n = n := by
  unfold intMax at fits
  simpa [Host.i64,little,i32] using i32_of_bounds (n := n) (by omega) (by omega)

/-- A timeout is parsed where the machine is little endian and the seconds fit. -/
theorem configParseTimeout_stands {host : Host} (little : host.bigEndian = false) {n : Nat} {u : TimeUnit}
    (fits : u.scalar*n ≤ intMax) {s : ParseState} {tks rest : List (Token TokenType)}
    (stand : List.Forall₂ (Stands .robsdRegress) [number n,.word u.word] tks) (pending : s.lx.pending = tks ++ rest) :
    ∃ lno, configParseTimeout host s = (.append (.integer (u.scalar*n : Nat)),past s rest lno) := by
  simp only [List.forall₂_cons_left_iff,List.forall₂_nil_left_iff] at stand
  obtain ⟨digits,_,integer,⟨unit,_,word,rfl,rfl⟩,rfl⟩ := stand
  obtain ⟨got,value⟩ := (@expect_integer _ _ _ _ (unit :: rest)) integer pending
  have ahead : (past s (unit :: rest) digits.lno).lx.pending = unit :: rest := rfl
  have small : n ≤ intMax := by
    have := Nat.mul_le_mul_right n (show 1 ≤ u.scalar by cases u <;> decide)
    omega
  have scaled : (past s (unit :: rest) digits.lno).peek.bind ConfigParse.scalar = some (u.scalar : Int) := by
    rw [peek_cons ahead]
    cases u with
    | seconds => rw [(@type_word _ _ .seconds _) word (by decide) (by decide)]; rfl
    | minutes => rw [(@type_word _ _ .minutes _) word (by decide) (by decide)]; rfl
    | hours => rw [(@type_word _ _ .hours _) word (by decide) (by decide)]; rfl
  have product : ((u.scalar : Int)*(n : Int)) = ((u.scalar*n : Nat) : Int) := (Int.natCast_mul _ _).symm
  have whole : i32 ((u.scalar*n : Nat) : Int) = ((u.scalar*n : Nat) : Int) := by
    unfold intMax at fits
    exact i32_of_bounds (by omega) (by omega)
  refine ⟨unit.lno,?_⟩
  rw [configParseTimeout,got]
  dsimp only
  rw [scaled,value,i64_of_fits little small]
  dsimp only
  rw [product,if_pos whole,advance_cons ahead,past_past]

end Robsd.ConfigTokens
