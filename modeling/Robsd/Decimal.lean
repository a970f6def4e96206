import Mathlib.Data.List.TakeWhile
import Robsd.Strings

/-!
Decimal integers as the C library writes and reads them: the conversion of
`printf` for signed integers, `strtoll` and, on top of it, `strtonum`.
-/
namespace Robsd.Decimal
open Robsd.Strings

/-- What `%d` and `%lld` print. -/
def decimal (n : Int) : Str :=
  if n < 0 then '-' :: Nat.toDigits 10 n.natAbs else Nat.toDigits 10 n.natAbs

/-- The sign in front of a number, if any, and the text after it. -/
def sign : Str → Bool × Str
  | '-' :: s => (true,s)
  | '+' :: s => (false,s)
  | s => (false,s)

/-- `strtoll` in base ten: the number denoted by the longest prefix that has the
    form of one, and the text behind it. There is none when no digit is found.
    The clamping of values outside of `long long` is left to `strtonum`, which
    rejects them either way. -/
def strtoll (s : Str) : Option (Int × Str) :=
  let (negative,text) := sign (s.dropWhile isspace)
  let digits := text.takeWhile isdigit
  if digits = [] then none
  else
    let n : Int := Nat.ofDigitChars 10 digits 0
    some (if negative then -n else n,text.dropWhile isdigit)

/-- The reasons for which `strtonum` rejects its argument. -/
inductive Error where
  | invalid
  | tooSmall
  | tooLarge
  deriving DecidableEq, Repr

/-- The text stored through `errstrp`. -/
def Error.text : Error → String
  | .invalid => "invalid"
  | .tooSmall => "too small"
  | .tooLarge => "too large"

/-- `strtonum` for bounds within `long long`. -/
def strtonum (s : Str) (minval maxval : Int) : Except Error Int :=
  if maxval < minval then .error .invalid
  else match strtoll s with
    | none => .error .invalid
    | some (n,rest) =>
      if rest ≠ [] then .error .invalid
      else if n < minval then .error .tooSmall
      else if maxval < n then .error .tooLarge
      else .ok n

theorem digits_isdigit {n : Nat} {c : Char} (member : c ∈ Nat.toDigits 10 n) : isdigit c = true := by
  rw [isdigit_eq]
  exact Nat.isDigit_of_mem_toDigits (by decide) (by decide) member

theorem decimal_ne_nil (n : Int) : decimal n ≠ [] := by
  unfold decimal
  split
  · simp
  · exact Nat.toDigits_ne_nil

/-- Only digits and the minus sign are printed. -/
theorem decimal_chars {n : Int} {c : Char} (member : c ∈ decimal n) : isdigit c = true ∨ c = '-' := by
  unfold decimal at member
  split at member
  · rcases List.mem_cons.mp member with minus | digit
    · exact .inr minus
    · exact .inl (digits_isdigit digit)
  · exact .inl (digits_isdigit member)

/-- Anything that is neither a digit nor the minus sign is absent from a printed number. -/
theorem decimal_absent (n : Int) {c : Char} (notDigit : isdigit c = false) (notMinus : c ≠ '-') :
    c ∉ decimal n := by
  intro member
  rcases decimal_chars member with digit | minus
  · rw [notDigit] at digit; cases digit
  · exact notMinus minus

/-- Decimal digits, with a minus sign in front of them or without, and the
    number they denote. -/
inductive Numeral : Str → Int → Prop
  | unsigned {digits : Str} (nonempty : digits ≠ []) (all : ∀ c ∈ digits, isdigit c = true) :
      Numeral digits (Nat.ofDigitChars 10 digits 0)
  | negative {digits : Str} (nonempty : digits ≠ []) (all : ∀ c ∈ digits, isdigit c = true) :
      Numeral ('-' :: digits) (-(Nat.ofDigitChars 10 digits 0))

theorem numeral_decimal (n : Int) : Numeral (decimal n) n := by
  have value : Nat.ofDigitChars 10 (Nat.toDigits 10 n.natAbs) 0 = n.natAbs := Nat.ofDigitChars_ten_toDigits
  have all : ∀ c ∈ Nat.toDigits 10 n.natAbs, isdigit c = true := fun _ member => digits_isdigit member
  unfold decimal
  split
  · next negative =>
    have number := Numeral.negative Nat.toDigits_ne_nil all
    rwa [value,show -(n.natAbs : Int) = n from by omega] at number
  · next unsigned =>
    have number := Numeral.unsigned Nat.toDigits_ne_nil all
    rwa [value,show (n.natAbs : Int) = n from by omega] at number

/-- `strtoll` reads a number and consumes all of it. -/
theorem strtoll_numeral {s : Str} {n : Int} (number : Numeral s n) : strtoll s = some (n,[]) := by
  have whole : ∀ {digits : Str}, (∀ c ∈ digits, isdigit c = true) →
      digits.takeWhile isdigit = digits ∧ digits.dropWhile isdigit = [] := fun all =>
    ⟨List.takeWhile_eq_self_iff.mpr all,List.dropWhile_eq_nil_iff.mpr all⟩
  cases number with
  | unsigned nonempty all =>
    obtain ⟨c,cs,split⟩ := List.exists_cons_of_ne_nil nonempty
    have digit : isdigit c = true := all c (by simp [split])
    have spaces : s.dropWhile isspace = s := by simp [split,isspace_of_isdigit digit]
    have bare : sign s = (false,s) := by
      rw [split]
      unfold sign
      split
      · next same => cases same; simp [show isdigit '-' = false from by decide] at digit
      · next same => cases same; simp [show isdigit '+' = false from by decide] at digit
      · rfl
    simp only [strtoll,spaces,bare,whole all,nonempty,↓reduceIte,Bool.false_eq_true]
  | @negative digits nonempty all =>
    have spaces : ('-' :: digits).dropWhile isspace = '-' :: digits := by
      simp [show isspace '-' = false from by decide]
    simp only [strtoll,spaces,sign,whole all,nonempty,↓reduceIte]

/-- A number within the bounds is accepted as it is. -/
theorem strtonum_numeral {s : Str} {n minval maxval : Int} (number : Numeral s n) (low : minval ≤ n)
    (high : n ≤ maxval) : strtonum s minval maxval = .ok n := by
  have bounds : ¬ maxval < minval := by omega
  simp [strtonum,strtoll_numeral number,bounds,show ¬ n < minval from by omega,show ¬ maxval < n from by omega]

/-- `strtoll` reads back a printed number and consumes all of it. -/
theorem strtoll_decimal (n : Int) : strtoll (decimal n) = some (n,[]) := strtoll_numeral (numeral_decimal n)

/-- A printed number within the bounds is read back as itself. -/
theorem strtonum_decimal {n minval maxval : Int} (low : minval ≤ n) (high : n ≤ maxval) :
    strtonum (decimal n) minval maxval = .ok n := strtonum_numeral (numeral_decimal n) low high

/-- Nothing but the number itself is read from a printed number. -/
theorem strtonum_decimal_ok {m n minval maxval : Int} (accepted : strtonum (decimal n) minval maxval = .ok m) :
    m = n := by
  simp only [strtonum,strtoll_decimal] at accepted
  split_ifs at accepted
  cases accepted
  rfl

/-- What `strtonum` accepts lies within the bounds. -/
theorem strtonum_bounds {s : Str} {n minval maxval : Int} (accepted : strtonum s minval maxval = .ok n) :
    minval ≤ n ∧ n ≤ maxval := by
  unfold strtonum at accepted
  split at accepted
  · cases accepted
  · split at accepted
    · cases accepted
    · split_ifs at accepted
      cases accepted
      omega

/-- Different numbers are printed differently. -/
theorem decimal_injective {m n : Int} (same : decimal m = decimal n) : m = n := by
  have read := strtoll_decimal m
  rw [same,strtoll_decimal] at read
  simpa using read.symm

end Robsd.Decimal
