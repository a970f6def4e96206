import Robsd.Substitution

/-!
Interpolation in two stages: a first one that only resolves some of the
variables and copies the references to all others, and a second one that
resolves the rest.
-/
namespace Robsd.Staging
open Robsd.Strings
open Robsd.Interpolate
open Robsd.Substitution
universe u
variable {σ : Type u} {f : Str → Option Str}

/-- The lookup that answers only the variables that are early. -/
def earlyLookup (early : Str → Bool) (f : Str → Option Str) (name : Str) : Option Str :=
  if early name then f name else none

/-- Expansions are concatenated. -/
theorem expands_append {levels : Nat} {a b outA outB : Str} (first : Expands f levels a outA)
    (second : Expands f levels b outB) :
    Expands f levels (a ++ b) (outA ++ outB) := by
  induction first with
  | @plain levels str none =>
    generalize top : levels+1 = levels' at second
    cases second with
    | @plain levels' str' none' =>
      exact .plain (by simp [none,none'])
    | @reference levels' before name value out ve rest first close named resolves inner tail =>
      rw [← List.append_assoc,← List.append_assoc,← List.append_assoc]
      exact .reference (by simp [none,first]) close named resolves inner tail
  | @reference levels before name value out ve rest first close named resolves inner _ _ ih =>
    have shape : (before ++ '$' :: '{' :: (name ++ '}' :: ve)) ++ b = before ++ '$' :: '{' ::
      (name ++ '}' :: (ve ++ b)) := by
      simp
    rw [shape,List.append_assoc]
    exact .reference first close named resolves inner (ih second)

/-- A reference that is not resolved is copied. -/
private theorem interpolate_copied {lookup : Lookup σ} {levels : Nat} {before name ve rest : Str} {s : σ}
    (first : '$' ∉ before) (close : '}' ∉ name) (named : name ≠ []) (absent : lookup name s = (none,s))
    (tail : interpolate lookup true (levels+1) ve s = (.ok rest,s)) :
    interpolate lookup true (levels+1) (before ++ '$' :: '{' :: (name ++ '}' :: ve)) s =
      (.ok (before ++ '$' :: '{' :: (name ++ '}' :: rest)),s) := by
  rw [interpolate_reference first close named]
  simp [absent,tail,prepend,Except.map]

/-- A reference that is resolved is replaced. -/
private theorem interpolate_replaced {lookup : Lookup σ} {levels : Nat} {before name value out ve rest : Str} {s : σ}
    (first : '$' ∉ before) (close : '}' ∉ name) (named : name ≠ []) (present : lookup name s = (some value,s))
    (inner : interpolate lookup true levels value s = (.ok out,s))
    (tail : interpolate lookup true (levels+1) ve s = (.ok rest,s)) :
    interpolate lookup true (levels+1) (before ++ '$' :: '{' :: (name ++ '}' :: ve)) s =
      (.ok (before ++ out ++ rest),s) := by
  rw [interpolate_reference first close named]
  simp [present,inner,tail,prepend,Except.map]

/-- The first stage leaves a template with the same expansion. -/
theorem staged {levels : Nat} {template out : Str} (early : Str → Bool)
    (expands : Expands f levels template out) (s : σ) :
    ∃ half, interpolate (reading (earlyLookup early f)) true levels template s = (.ok half,s) ∧
      Expands f levels half out := by
  induction expands with
  | plain none => exact ⟨_,interpolate_plain _ _ _ none s,.plain none⟩
  | @reference levels before name value out ve rest first close named resolves _ _ inner tail =>
    obtain ⟨halfInner,ranInner,againInner⟩ := inner
    obtain ⟨halfTail,ranTail,againTail⟩ := tail
    by_cases now : early name = true
    · have present : (reading (earlyLookup early f) : Lookup σ) name s = (some value,s) := by
        simp [reading,earlyLookup,now,resolves]
      refine ⟨before ++ halfInner ++ halfTail,interpolate_replaced first close named present ranInner ranTail,?_⟩
      exact expands_append (expands_append (.plain first) (expands_mono againInner (by omega))) againTail
    · have absent : (reading (earlyLookup early f) : Lookup σ) name s = (none,s) := by
        simp [reading,earlyLookup,now]
      refine ⟨before ++ '$' :: '{' :: (name ++ '}' :: halfTail),interpolate_copied first close named absent ranTail,?_⟩
      exact .reference first close named resolves (by assumption) againTail

/-- Interpolating with the early variables only, and then what that leaves,
    gives what interpolating at once does. -/
theorem early_then_full (f : Str → Option Str) (early : Str → Bool) {template out : Str} (s : σ)
    (full : contextStr (reading f) false template s = .ok out) :
    ∃ half, contextStr (reading (earlyLookup early f)) true template s = .ok half ∧
      contextStr (reading f) false half s = .ok out := by
  simp only [contextStr_eq] at full ⊢
  obtain ⟨half,ran,again⟩ := staged early ((interpolate_ok_iff f 4 template s out).mp full) s
  exact ⟨half,by rw [interpolateStr,ran],(interpolate_ok_iff f 4 half s out).mpr again⟩

/-- A variable whose value refers to another one. -/
def sampleLookup (name : Str) : Option Str :=
  if name = "a".toList then some "<${b}>".toList else if name = "b".toList then some "x".toList else none

theorem early_then_full_sample :
    ∃ half, contextStr (reading (earlyLookup (· = "a".toList) sampleLookup)) true "${a}-${b}".toList () = .ok half ∧
    contextStr (reading sampleLookup) false half () = .ok "<x>-x".toList :=
  early_then_full sampleLookup (· = "a".toList) () (by decide +kernel)

end Robsd.Staging
