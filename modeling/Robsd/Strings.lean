import Mathlib.Data.List.Basic

/-!
C strings and what the standard library does with them: `strchr`, and the
classification of characters in the C locale.
-/
namespace Robsd.Strings

/-- The characters of a C string before its terminating NUL, or the content of a
    buffer or file, where NUL may occur. -/
abbrev Str := List Char

/-- What holds of the characters of a string is decided along the string. -/
instance decidableAllChars (s : Str) (P : Char → Prop) [DecidablePred P] : Decidable (∀ c ∈ s, P c) :=
  List.decidableBAll P s

instance decidableExistsChar (s : Str) (P : Char → Prop) [DecidablePred P] : Decidable (∃ c ∈ s, P c) :=
  List.decidableBEx P s

/-- The terminator of a C string. -/
abbrev nul : Char := '\x00'

/-- An argument of a program: `execve` cannot pass a NUL inside one. -/
structure Arg where
  str : Str
  noNul : nul ∉ str

/-- The argument with the characters of a text other than NUL. -/
def Arg.ofText (text : String) : Arg := ⟨text.toList.filter (· ≠ nul),by simp⟩

/-- The text before the first occurrence of a character and the text after it. -/
def strchr (c : Char) : Str → Option (Str × Str)
  | [] => none
  | x :: xs => if x = c then some ([],xs) else (strchr c xs).map fun found => (x :: found.1,found.2)

theorem strchr_none {c : Char} {s : Str} : strchr c s = none ↔ c ∉ s := by
  induction s with
  | nil => simp [strchr]
  | cons x xs ih =>
    by_cases same : x = c
    · simp [strchr,same]
    · simp [strchr,same,ih,Ne.symm same]

/-- What `strchr` finds is the first occurrence. -/
theorem strchr_some {c : Char} {s before after : Str} :
    strchr c s = some (before,after) ↔ s = before ++ c :: after ∧ c ∉ before := by
  induction s generalizing before with
  | nil => simp [strchr]
  | cons x xs ih =>
    by_cases same : x = c
    · subst same
      cases before with
      | nil => simp [strchr]
      | cons y ys =>
        simp only [strchr,↓reduceIte,Option.some.injEq,Prod.mk.injEq,List.cons_append,List.cons.injEq]
        constructor
        · rintro ⟨impossible,_⟩; cases impossible
        · rintro ⟨⟨rfl,_⟩,absent⟩; exact absurd (by simp) absent
    · simp only [strchr,same,↓reduceIte,Option.map_eq_some_iff]
      constructor
      · rintro ⟨⟨first,last⟩,found,pair⟩
        cases pair
        obtain ⟨split,absent⟩ := ih.mp found
        exact ⟨by simp [split],by simp [Ne.symm same,absent]⟩
      · rintro ⟨split,absent⟩
        cases before with
        | nil => simp only [List.nil_append,List.cons.injEq] at split; exact absurd split.1 same
        | cons y ys =>
          simp only [List.cons_append,List.cons.injEq] at split
          obtain ⟨rfl,rest⟩ := split
          exact ⟨(ys,after),ih.mpr ⟨rest,fun member => absent (by simp [member])⟩,rfl⟩

theorem strchr_append {c : Char} {before : Str} (absent : c ∉ before) (after : Str) :
    strchr c (before ++ c :: after) = some (before,after) :=
  strchr_some.mpr ⟨rfl,absent⟩

theorem strchr_length {c : Char} {s before after : Str} (found : strchr c s = some (before,after)) :
    after.length < s.length := by
  rw [(strchr_some.mp found).1]
  simp
  omega

/-- `isspace` in the C locale. -/
def isspace (c : Char) : Bool :=
  c = ' ' || c = '\t' || c = '\n' || c = '\x0b' || c = '\x0c' || c = '\r'

/-- `isdigit`. -/
def isdigit (c : Char) : Bool := '0' ≤ c && c ≤ '9'

/-- `islower` in the C locale. -/
def islower (c : Char) : Bool := 'a' ≤ c && c ≤ 'z'

theorem isdigit_eq (c : Char) : isdigit c = c.isDigit := by
  simp [isdigit,Char.isDigit,Char.le_def]

theorem isspace_of_isdigit {c : Char} (digit : isdigit c = true) : isspace c = false := by
  simp only [isdigit,Bool.and_eq_true,decide_eq_true_eq] at digit
  simp only [isspace,Bool.or_eq_false_iff,decide_eq_false_iff_not]
  refine ⟨⟨⟨⟨⟨?_,?_⟩,?_⟩,?_⟩,?_⟩,?_⟩ <;> rintro rfl <;> revert digit <;> decide

end Robsd.Strings
