import Mathlib.Data.List.Sort

/-!
Sorting as the C library promises it. `qsort` leaves the order of elements that
compare equal unspecified, so a development that sorts takes any function with
this contract; where keys are pairwise distinct its result is determined.
-/
namespace Robsd.Sorting
universe u v
variable {α : Type u} {κ : Type v} [LinearOrder κ]

/-- A sorting function by a key: its output is a permutation of its input in
    which no key decreases. -/
structure Qsort (key : α → κ) where
  sort : List α → List α
  perm : ∀ xs, (sort xs).Perm xs
  sorted : ∀ xs, (sort xs).Pairwise fun a b => key a ≤ key b

/-- Sorting by insertion, which keeps the order of equal elements. -/
def insertion (key : α → κ) : Qsort key where
  sort := List.insertionSort fun a b => key a ≤ key b
  perm := List.perm_insertionSort _
  sorted xs := by
    have : Std.Total fun a b : α => key a ≤ key b := ⟨fun a b => le_total (key a) (key b)⟩
    have : IsTrans α fun a b : α => key a ≤ key b := ⟨fun a b c => le_trans⟩
    exact List.pairwise_insertionSort _ xs

variable {key : α → κ} (q : Qsort key)

@[simp] theorem mem_sort {xs : List α} {x : α} : x ∈ q.sort xs ↔ x ∈ xs := (q.perm xs).mem_iff

theorem sort_nodup {xs : List α} (distinct : (xs.map key).Nodup) : ((q.sort xs).map key).Nodup :=
  ((q.perm xs).map key).nodup_iff.mpr distinct

/-- Distinct keys come out strictly increasing. -/
theorem sort_strict {xs : List α} (distinct : (xs.map key).Nodup) :
    (q.sort xs).Pairwise fun a b => key a < key b := by
  have different := List.pairwise_map.mp (sort_nodup q distinct)
  exact (q.sorted xs).imp₂ (fun a b le ne => lt_of_le_of_ne le ne) different

/-- A list with strictly increasing keys is the only ordered arrangement of its elements. -/
theorem strict_unique {xs ys : List α} (perm : xs.Perm ys)
    (first : xs.Pairwise fun a b => key a < key b) (second : ys.Pairwise fun a b => key a < key b) : xs = ys :=
  perm.eq_of_pairwise (fun _ _ _ _ lt gt => absurd lt (lt_asymm gt)) first second

/-- Sorting what is already strictly increasing changes nothing. -/
theorem sort_of_strict {xs : List α} (ordered : xs.Pairwise fun a b => key a < key b) : q.sort xs = xs := by
  have distinct : (xs.map key).Nodup := List.pairwise_map.mpr (ordered.imp fun lt => ne_of_lt lt)
  exact strict_unique (q.perm xs) (sort_strict q distinct) ordered

/-- A rearrangement of images is the image of a rearrangement. -/
theorem perm_map {β : Type v} {f : α → β} {ys : List β} {xs : List α} (perm : ys.Perm (xs.map f)) :
    ∃ xs' : List α, xs'.Perm xs ∧ ys = xs'.map f := by
  generalize images : xs.map f = zs at perm
  induction perm generalizing xs with
  | nil => exact ⟨[],by rw [List.map_eq_nil_iff.mp images],rfl⟩
  | cons y _ ih =>
    obtain ⟨x,xs,rfl,rfl,later⟩ := List.map_eq_cons_iff.mp images
    obtain ⟨xs',same,rfl⟩ := ih later
    exact ⟨x :: xs',same.cons x,rfl⟩
  | swap y z ys =>
    obtain ⟨a,xs,rfl,rfl,later⟩ := List.map_eq_cons_iff.mp images
    obtain ⟨b,xs,rfl,rfl,rfl⟩ := List.map_eq_cons_iff.mp later
    exact ⟨b :: a :: xs,.swap a b xs,rfl⟩
  | trans _ _ first second =>
    obtain ⟨xs',same,rfl⟩ := second images
    obtain ⟨xs'',same',rfl⟩ := first rfl
    exact ⟨xs'',same'.trans same,rfl⟩

end Robsd.Sorting
