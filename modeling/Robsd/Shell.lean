import Mathlib.Logic.Function.Basic
import Robsd.Decimal

/-!
What the shell functions rely on: variables, the evaluation of a text that
assigns plain words to them, what `echo` prints of a plain word, the splitting of
unquoted expansions, and the numeric test. What `eval` and `echo` do to any other
text is left open.
-/
namespace Robsd.Shell
open Robsd.Strings
open Robsd.Decimal (decimal strtonum decimal_chars)

/-- The values of the variables; one that is not set is empty. -/
abbrev Vars := Str → Str

/-- A character the shell takes literally wherever it stands. -/
def plain (c : Char) : Bool :=
  ('a' ≤ c && c ≤ 'z') || ('A' ≤ c && c ≤ 'Z') || isdigit c || c = '_' || c = '-' || c = '.' || c =
    '/' || c = '+' || c = ':'

/-- A word without anything to expand, split or quote; it may be empty. -/
def Word (s : Str) : Prop := ∀ c ∈ s, plain c = true

instance (s : Str) : Decidable (Word s) := inferInstanceAs (Decidable (∀ c ∈ s, plain c = true))

theorem word_absent {s : Str} (word : Word s) {c : Char} (special : plain c = false) : c ∉ s := by
  intro member
  rw [word c member] at special
  cases special

theorem word_decimal (n : Int) : Word (decimal n) := by
  intro c member
  rcases decimal_chars member with digit | rfl
  · simp [plain,digit]
  · decide

/-- A text that assigns values to variables, one a line. -/
def assignments (pairs : List (Str × Str)) : Str := pairs.flatMap fun p => p.1 ++ '=' :: p.2 ++ ['\n']

/-- The variables after the assignments. -/
def assigned (vars : Vars) (pairs : List (Str × Str)) : Vars := pairs.foldl (fun v p => Function.update v p.1 p.2) vars

/-- Whether `echo` takes a word for its options. -/
def echoOption : Str → Bool
  | '-' :: c :: cs => (c :: cs).all fun c => c = 'n' || c = 'e' || c = 'E'
  | _ => false

/-- What `echo` prints of a plain word. -/
def echoed (word : Str) : Str := if echoOption word then [] else word

theorem echoed_eq_iff {word text : Str} (nonempty : text ≠ []) (kept : echoOption text = false) :
    echoed word = text ↔ word = text := by
  by_cases option : echoOption word = true
  · rw [echoed,if_pos option]
    exact iff_of_false (fun none => nonempty none.symm) fun same => by rw [same,kept] at option; cases option
  · rw [echoed,if_neg option]

theorem echoed_decimal (n : Int) : echoed (decimal n) = decimal n := by
  apply if_neg
  intro option
  unfold echoOption at option
  split at option
  · next c cs shape =>
    have member : c ∈ decimal n := by simp [shape]
    have letter := List.all_eq_true.mp option c List.mem_cons_self
    simp only [Bool.or_eq_true,decide_eq_true_eq] at letter
    rcases decimal_chars member with digit | rfl
    · rcases letter with (rfl | rfl) | rfl <;> cases digit
    · revert letter
      decide
  · cases option

/-- The shell, as far as `eval` and `echo` are concerned: plain words are assigned as
    they are, and printed as they are unless they are options. -/
structure Interpreter where
  eval : Str → Vars → Vars
  echo : Str → Str
  assigns : ∀ (pairs : List (Str × Str)) (vars : Vars), (∀ p ∈ pairs, Word p.1 ∧ Word p.2) →
    eval (assignments pairs) vars = assigned vars pairs
  echoes : ∀ word, Word word → echo word = echoed word

/-- A shell that does nothing but assign. -/
def evalPlain (text : Str) (vars : Vars) : Vars :=
  match _name : strchr '=' text with
  | none => vars
  | some (name,rest) =>
    match _word : strchr '\n' rest with
    | none => vars
    | some (word,more) => evalPlain more (Function.update vars name word)
termination_by text.length
decreasing_by
  have := strchr_length _name
  have := strchr_length _word
  omega

theorem evalPlain_line {name word more : Str} (noEquals : '=' ∉ name) (noNewline : '\n' ∉ word) (vars : Vars) :
    evalPlain (name ++ '=' :: word ++ '\n' :: more) vars = evalPlain more (Function.update vars name word) := by
  have first : strchr '=' (name ++ '=' :: word ++ '\n' :: more) = some (name,word ++ '\n' :: more) := by
    rw [List.append_assoc]
    exact strchr_append noEquals _
  have second := strchr_append noNewline more
  rw [evalPlain]
  split
  · next impossible => rw [first] at impossible; cases impossible
  · next found =>
    rw [first] at found
    cases found
    split
    · next impossible => rw [second] at impossible; cases impossible
    · next found =>
      rw [second] at found
      cases found
      rfl

def plainShell : Interpreter where
  eval := evalPlain
  echo := echoed
  echoes _ _ := rfl
  assigns pairs vars words := by
    induction pairs generalizing vars with
    | nil =>
      rw [assignments,List.flatMap_nil,evalPlain]
      rfl
    | cons p pairs ih =>
      obtain ⟨name,word⟩ := words p (by simp)
      have line := @evalPlain_line p.1 p.2 (assignments pairs) (word_absent name (by decide))
        (word_absent word (by decide)) vars
      have shape : assignments (p :: pairs) = p.1 ++ '=' :: p.2 ++ '\n' :: assignments pairs := by
        simp [assignments]
      rw [shape,line,ih _ fun p member => words p (by simp [member])]
      rfl

/-- A variable keeps the last value assigned to it; here each is assigned once. -/
theorem assigned_mem {pairs : List (Str × Str)} (distinct : (pairs.map Prod.fst).Nodup) (vars : Vars) {name word : Str}
    (member : (name,word) ∈ pairs) : assigned vars pairs name = word := by
  have other : ∀ (pairs : List (Str × Str)) (vars : Vars), name ∉ pairs.map Prod.fst →
      assigned vars pairs name = vars name := by
    intro pairs
    induction pairs with
    | nil => intro vars _; rfl
    | cons p pairs ih =>
      intro vars absent
      simp only [List.map_cons,List.mem_cons,not_or] at absent
      simp only [assigned,List.foldl_cons]
      exact (ih _ absent.2).trans (Function.update_of_ne absent.1 _ _)
  induction pairs generalizing vars with
  | nil => cases member
  | cons p pairs ih =>
    obtain ⟨fresh,distinct⟩ := List.nodup_cons.mp distinct
    rcases List.mem_cons.mp member with rfl | later
    · exact (other pairs _ fresh).trans (Function.update_self _ _ _)
    · exact ih distinct _ later

/-! ## Unquoted expansions -/

/-- The characters of the default `IFS`. -/
def blank (c : Char) : Bool := c = ' ' || c = '\t' || c = '\n'

/-- The fields an unquoted expansion is split into. -/
def splitFields (s : Str) : List Str :=
  match _start : s.dropWhile blank with
  | [] => []
  | c :: cs => (c :: cs.takeWhile fun c => !blank c) :: splitFields (cs.dropWhile fun c => !blank c)
termination_by s.length
decreasing_by
  have first := (List.dropWhile_sublist (p := blank) (l := s)).length_le
  have second := (List.dropWhile_sublist (p := fun c => !blank c) (l := cs)).length_le
  rw [_start,List.length_cons] at first
  omega

/-- Text without blanks is one field. -/
theorem splitFields_solid {s : Str} (nonempty : s ≠ []) (solid : ∀ c ∈ s, blank c = false) : splitFields s = [s] := by
  cases s with
  | nil => exact absurd rfl nonempty
  | cons c cs =>
    have start : (c :: cs).dropWhile blank = c :: cs := by
      rw [List.dropWhile_cons_of_neg (by simp [solid c (by simp)])]
    have rest : ∀ d ∈ cs, (!blank d) = true := fun d member => by simp [solid d (by simp [member])]
    rw [splitFields]
    split
    · next impossible => rw [start] at impossible; cases impossible
    · next found =>
      rw [start] at found
      cases found
      rw [List.takeWhile_eq_self_iff.mpr rest,List.dropWhile_eq_nil_iff.mpr rest,splitFields]
      rfl

/-- Splitting adds no characters. -/
theorem mem_splitFields {s field : Str} (member : field ∈ splitFields s) : ∀ c ∈ field, c ∈ s := by
  induction size : s.length using Nat.strongRecOn generalizing s with
  | _ n ih =>
    rw [splitFields] at member
    split at member
    · cases member
    · next c cs start =>
      have kept : ∀ d ∈ c :: cs, d ∈ s := fun d inside =>
        (List.dropWhile_sublist blank).subset (start ▸ inside)
      have shorter := (List.dropWhile_sublist (p := blank) (l := s)).length_le
      have rest := (List.dropWhile_sublist (p := fun c => !blank c) (l := cs)).length_le
      rw [start,List.length_cons] at shorter
      rcases List.mem_cons.mp member with rfl | later
      · intro d inside
        rcases List.mem_cons.mp inside with rfl | ahead
        · exact kept d (by simp)
        · exact kept d (List.mem_cons_of_mem _ ((List.takeWhile_sublist _).subset ahead))
      · intro d inside
        have found := ih _ (by omega) later rfl d inside
        exact kept d (List.mem_cons_of_mem _ ((List.dropWhile_sublist _).subset found))

/-! ## Tests -/

/-- The number a text stands for in `[ text -eq n ]` and in arithmetic. -/
def numeric (text : Str) : Option Int := (strtonum text (-9223372036854775808) 9223372036854775807).toOption

/-- `[ text -eq n ]`, which fails on anything that is no number. -/
def testEq (text : Str) (n : Int) : Bool := numeric text = some n

theorem testEq_decimal {k n : Int} (same : testEq (decimal k) n = true) : k = n := by
  rw [testEq,decide_eq_true_eq] at same
  unfold numeric at same
  cases read : strtonum (decimal k) (-9223372036854775808) 9223372036854775807 with
  | error _ => simp [read,Except.toOption] at same
  | ok m =>
    simp only [read,Except.toOption,Option.some.injEq] at same
    rw [← same,Decimal.strtonum_decimal_ok read]

end Robsd.Shell
