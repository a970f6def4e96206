import Mathlib.Logic.Relation

/-!
Loops in the abstract. A loop is given by its round, which either goes again with
a new state or leaves with a result; nothing says beforehand that it is ever left.
-/
namespace Robsd.Loops
universe u v
variable {σ : Type u} {ρ : Type v}

/-- What one round leads to. -/
inductive Round (σ : Type u) (ρ : Type v) where
  | again (s : σ)
  | leave (r : ρ)

/-- The loop that is entered in a state is left in a number of rounds with a result. -/
inductive Leaves (body : σ → Round σ ρ) : σ → Nat → ρ → Prop
  | last {s : σ} {r : ρ} (ends : body s = .leave r) : Leaves body s 1 r
  | next {s s' : σ} {n : Nat} {r : ρ} (goes : body s = .again s') (later : Leaves body s' n r) : Leaves body s (n+1) r

/-- From one state a loop comes to another one at the start of a round. -/
def Comes (body : σ → Round σ ρ) : σ → σ → Prop := Relation.ReflTransGen fun s s' => body s = .again s'

section
variable {body : σ → Round σ ρ}

/-- A loop is left in one way at most. -/
theorem Leaves.unique {s : σ} {n n' : Nat} {r r' : ρ} (first : Leaves body s n r) (second : Leaves body s n' r') :
    n = n' ∧ r = r' := by
  induction first generalizing n' with
  | last ends =>
    cases second with
    | last ends' =>
      rw [ends] at ends'
      cases ends'
      exact ⟨rfl,rfl⟩
    | next goes _ => rw [ends] at goes; cases goes
  | next goes _ ih =>
    cases second with
    | last ends => rw [goes] at ends; cases ends
    | next goes' later =>
      rw [goes] at goes'
      cases goes'
      obtain ⟨rfl,rfl⟩ := ih later
      exact ⟨rfl,rfl⟩

/-- A loop whose rounds lower a measure is left, with the result of any function
    that the rounds unroll. -/
theorem leaves_within {m : σ → Nat} {f : σ → ρ}
    (rounds : ∀ s, (∃ s', body s = .again s' ∧ m s' < m s ∧ f s = f s') ∨ body s = .leave (f s)) (s : σ) :
    ∃ n, n ≤ m s+1 ∧ Leaves body s n (f s) := by
  induction size : m s using Nat.strongRecOn generalizing s with
  | _ k ih =>
    rcases rounds s with ⟨s',goes,lower,same⟩ | ends
    · obtain ⟨n,within,later⟩ := ih (m s') (size ▸ lower) s' rfl
      exact ⟨n+1,by omega,same ▸ .next goes later⟩
    · exact ⟨1,by omega,.last ends⟩

/-- What every round keeps holds where the loop is left. -/
theorem Leaves.keeps {I : σ → Prop} {P : ρ → Prop} {s : σ} {n : Nat} {r : ρ} (leaves : Leaves body s n r)
    (goes : ∀ {s s'}, I s → body s = .again s' → I s') (ends : ∀ {s r}, I s → body s = .leave r → P r)
    (holds : I s) :
    P r := by
  induction leaves with
  | last round => exact ends holds round
  | next round _ ih => exact ih (goes holds round)

end
end Robsd.Loops
