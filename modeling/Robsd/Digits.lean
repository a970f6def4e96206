import Mathlib.Algebra.Group.Nat.Defs
import Mathlib.Data.Char
import Mathlib.Data.List.Lex
import Mathlib.Order.Lattice

/-!
Decimal digits under the lexicographic order. Among numbers of one width it is
the numeric order; a shorter number goes before a longer one only when it does
not exceed the leading digits of it.
-/
namespace Robsd.Digits
universe u
variable {α : Type u} [LinearOrder α]

/-! ## Lists of one length -/

theorem append_lt_append_iff {a b s t : List α} (same : a.length = b.length) :
    a ++ s < b ++ t ↔ a < b ∨ a = b ∧ s < t := by
  induction a generalizing b with
  | nil =>
    cases List.length_eq_zero_iff.mp same.symm
    simp
  | cons x a ih =>
    cases b with
    | nil => simp at same
    | cons y b =>
      have tail := ih (Nat.succ.inj same)
      simp only [List.cons_append,List.cons_lt_cons_iff,tail,List.cons.injEq]
      constructor
      · rintro (less | ⟨rfl,less | ⟨rfl,less⟩⟩)
        · exact .inl (.inl less)
        · exact .inl (.inr ⟨rfl,less⟩)
        · exact .inr ⟨⟨rfl,rfl⟩,less⟩
      · rintro ((less | ⟨rfl,less⟩) | ⟨⟨rfl,rfl⟩,less⟩)
        · exact .inl less
        · exact .inr ⟨rfl,.inl less⟩
        · exact .inr ⟨rfl,.inr ⟨rfl,less⟩⟩

theorem append_left_lt_iff (a : List α) {s t : List α} : a ++ s < a ++ t ↔ s < t := by
  rw [append_lt_append_iff rfl]
  simp

/-- Something longer goes behind whatever it starts with. -/
theorem lt_append_iff {a b t : List α} (same : a.length = b.length) (longer : t ≠ []) : a < b ++ t ↔ a ≤ b := by
  have split := append_lt_append_iff (s := []) (t := t) same
  have behind : [] < t := by
    cases t with
    | nil => exact absurd rfl longer
    | cons x t => exact List.nil_lt_cons x t
  rw [List.append_nil] at split
  rw [split,le_iff_lt_or_eq]
  simp [behind]

/-! ## Numbers of one width -/

/-- The last digits of a number, as many as the width says. -/
def pad : Nat → Nat → List Char
  | 0,_ => []
  | width+1,n => pad width (n/10) ++ [Nat.digitChar (n%10)]

@[simp] theorem pad_length (width n : Nat) : (pad width n).length = width := by
  induction width generalizing n with
  | zero => rfl
  | succ width ih => simp [pad,ih]

theorem digitChar_lt_iff {m n : Nat} (small : m < 10) (small' : n < 10) :
    Nat.digitChar m < Nat.digitChar n ↔ m < n := by
  have all : ∀ m : Fin 10, ∀ n : Fin 10, Nat.digitChar m < Nat.digitChar n ↔ m < n := by decide
  exact all ⟨m,small⟩ ⟨n,small'⟩

/-- Within the width the order is that of the numbers. -/
theorem pad_lt_iff {width m n : Nat} (fits : m < 10^width) (fits' : n < 10^width) :
    pad width m < pad width n ↔ m < n := by
  induction width generalizing m n with
  | zero =>
    simp only [Nat.pow_zero] at fits fits'
    simp [pad]
    omega
  | succ width ih =>
    have here : m/10 < 10^width := Nat.div_lt_of_lt_mul (by rw [Nat.pow_succ] at fits; omega)
    have here' : n/10 < 10^width := Nat.div_lt_of_lt_mul (by rw [Nat.pow_succ] at fits'; omega)
    have equal : pad width (m/10) = pad width (n/10) ↔ m/10 = n/10 := by
      have one := ih here here'
      have other := ih here' here
      constructor
      · intro same
        rw [same] at one other
        have := (not_iff_not.mpr one).mp (lt_irrefl _)
        have := (not_iff_not.mpr other).mp (lt_irrefl _)
        omega
      · intro same
        rw [same]
    have digit : [Nat.digitChar (m%10)] < [Nat.digitChar (n%10)] ↔ m%10 < n%10 := by
      rw [List.cons_lt_cons_iff,← digitChar_lt_iff (by omega) (by omega)]
      simp
    rw [pad,pad,append_lt_append_iff (by simp),ih here here',equal,digit]
    omega

theorem pad_injective {width m n : Nat} (fits : m < 10^width) (fits' : n < 10^width)
    (same : pad width m = pad width n) :
    m = n := by
  have one := pad_lt_iff fits fits'
  have other := pad_lt_iff fits' fits
  rw [same] at one other
  have := (not_iff_not.mpr one).mp (lt_irrefl _)
  have := (not_iff_not.mpr other).mp (lt_irrefl _)
  omega

/-- The leading digits and the others. -/
theorem pad_add (width more n : Nat) : pad (width+more) n = pad width (n/10^more) ++ pad more n := by
  induction more generalizing n with
  | zero => simp [pad]
  | succ more ih =>
    rw [← Nat.add_assoc,pad,ih,pad,List.append_assoc,Nat.div_div_eq_div_mul,Nat.pow_succ']

/-! ## Numbers without leading zeros -/

/-- The number of digits. -/
def width (n : Nat) : Nat := (Nat.toDigits 10 n).length

theorem width_pos (n : Nat) : 0 < width n := Nat.length_toDigits_pos

theorem lt_pow_width (n : Nat) : n < 10^width n :=
  (Nat.length_toDigits_le_iff (by decide) (width_pos n)).mp (Nat.le_refl _)

theorem toDigits_eq_pad (n : Nat) : Nat.toDigits 10 n = pad (width n) n := by
  induction n using Nat.strongRecOn with
  | _ n ih =>
    by_cases small : n < 10
    · rw [width,Nat.toDigits_of_lt_base small]
      simp [pad,Nat.mod_eq_of_lt small]
    · have split := Nat.toDigits_of_base_le (by decide) (Nat.le_of_not_lt small)
      have length : width n = width (n/10)+1 := by rw [width,split,List.length_append,List.length_singleton,width]
      rw [length,pad,split,ih (n/10) (by omega)]

theorem width_mono {m n : Nat} (le : m ≤ n) : width m ≤ width n :=
  (Nat.length_toDigits_le_iff (by decide) (width_pos n)).mpr (Nat.lt_of_le_of_lt le (lt_pow_width n))

/-- The number is at most the one that the leading digits of the other form, as
    many as it has itself. -/
def Leads (m n : Nat) : Prop := m ≤ n/10^(width n-width m)

instance (m n : Nat) : Decidable (Leads m n) := inferInstanceAs (Decidable (_ ≤ _))

/-- Where the smaller number goes first. -/
theorem toDigits_lt_iff {m n : Nat} (less : m < n) : Nat.toDigits 10 m < Nat.toDigits 10 n ↔ Leads m n := by
  have shorter := width_mono (Nat.le_of_lt less)
  have low := lt_pow_width m
  have high := lt_pow_width n
  rw [toDigits_eq_pad m,toDigits_eq_pad n,Leads]
  obtain ⟨more,split⟩ := Nat.exists_eq_add_of_le shorter
  rw [split,Nat.add_sub_cancel_left]
  cases more with
  | zero =>
    rw [split,Nat.add_zero] at high
    rw [Nat.add_zero,pad_lt_iff low high]
    simp
    omega
  | succ more =>
    have first : n/10^(more+1) < 10^width m :=
      Nat.div_lt_of_lt_mul (by rw [← Nat.pow_add,Nat.add_comm,← split]; exact high)
    rw [pad_add,lt_append_iff (by simp) (by simp [pad]),← not_lt,pad_lt_iff first low,Nat.not_lt]

theorem toDigits_injective {m n : Nat} (same : Nat.toDigits 10 m = Nat.toDigits 10 n) : m = n := by
  have back := congrArg (Nat.ofDigitChars 10 · 0) same
  simpa using back

end Robsd.Digits
