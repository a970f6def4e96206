import Mathlib.Data.Nat.Find
import Mathlib.Data.List.Basic

/-!
Cutting a list into segments in one pass: what is collected is thrown away at a
marker, handed out at a hit and collected anew after it. The segments are those
that end at the hits and start at the last marker or after the previous hit.
-/
namespace Robsd.Segments
universe u
variable {α : Type u} (marker hit : α → Bool)

/-- The segments of what was collected and what follows. -/
def segments : List α → List α → List (List α)
  | _,[] => []
  | scratch,x :: xs =>
    let scratch := (if marker x then [] else scratch) ++ [x]
    if hit x then scratch :: segments [] xs else segments scratch xs

/-- A segment has nothing but what was collected and what follows. -/
theorem segments_subset (scratch xs : List α) : ∀ s ∈ segments marker hit scratch xs, s ⊆ scratch ++ xs := by
  induction xs generalizing scratch with
  | nil => exact fun _ impossible => by cases impossible
  | cons x xs ih =>
    have kept : (if marker x then [] else scratch) ++ [x] ⊆ scratch ++ x :: xs := by
      intro y member
      rcases List.mem_append.mp member with old | new
      · split at old
        · cases old
        · exact List.mem_append_left _ old
      · rw [List.mem_singleton.mp new]
        simp
    intro s member
    rw [segments] at member
    by_cases found : hit x = true
    · rw [if_pos found] at member
      rcases List.mem_cons.mp member with rfl | later
      · exact kept
      · intro y inside
        have behind := ih [] s later inside
        simp only [List.nil_append] at behind
        simp [behind]
    · rw [if_neg found] at member
      intro y inside
      rcases List.mem_append.mp (ih _ s member inside) with old | behind
      · exact kept old
      · simp [behind]

/-- The positions of the hits. -/
def hits (xs : List α) : List Nat := (List.range xs.length).filter fun i => xs[i]?.any hit

/-- The last marker at a position or before it, or the start of the list. -/
def lastMarker (xs : List α) (i : Nat) : Nat := Nat.findGreatest (fun j => xs[j]?.any marker) i

/-- The position after the last hit before a position, or the start of the list. -/
def afterHit (xs : List α) (i : Nat) : Nat := Nat.findGreatest (fun j => 0 < j ∧ xs[j-1]?.any hit) i

/-- Where the segment that ends at a position starts. -/
def start (xs : List α) (i : Nat) : Nat := max (lastMarker marker xs i) (afterHit hit xs i)

/-- The elements from one position to another one. -/
def segment (xs : List α) (first last : Nat) : List α := (xs.take (last+1)).drop first

theorem start_le (xs : List α) (i : Nat) : start marker hit xs i ≤ i :=
  max_le (Nat.findGreatest_le i) (Nat.findGreatest_le i)

/-- A segment starts after every earlier hit. -/
theorem hit_lt_start {xs : List α} {i j : Nat} (member : i ∈ hits hit xs) (later : i < j) :
    i < start marker hit xs j := by
  have found : (xs[i]?.any hit) = true := (List.mem_filter.mp member).2
  have after : i+1 ≤ afterHit hit xs j := Nat.le_findGreatest later ⟨by omega,by simpa using found⟩
  exact lt_of_lt_of_le after (le_max_right _ _)

/-- The segments lie one behind the other. -/
theorem hits_apart (xs : List α) : (hits hit xs).Pairwise fun i j => i < start marker hit xs j := by
  have sorted : (hits hit xs).Pairwise (· < ·) := List.Pairwise.filter _ List.pairwise_lt_range
  apply sorted.imp_of_mem
  intro i j member _ less
  exact hit_lt_start marker hit member less

theorem start_marker {xs : List α} {i : Nat} (here : xs[i]?.any marker) : start marker hit xs i = i := by
  have last : i ≤ lastMarker marker xs i := Nat.le_findGreatest (Nat.le_refl i) here
  exact Nat.le_antisymm (start_le marker hit xs i) (Nat.le_trans last (le_max_left _ _))

theorem start_zero (xs : List α) : start marker hit xs 0 = 0 := Nat.le_zero.mp (start_le marker hit xs 0)

theorem start_after {xs : List α} {i : Nat} (here : xs[i]?.any hit) : start marker hit xs (i+1) = i+1 := by
  have after : i+1 ≤ afterHit hit xs (i+1) := Nat.le_findGreatest (Nat.le_refl _) ⟨by omega,by simpa using here⟩
  exact Nat.le_antisymm (start_le marker hit xs (i+1)) (Nat.le_trans after (le_max_right _ _))

theorem start_within {xs : List α} {i : Nat} (unmarked : ¬ xs[i+1]?.any marker) (missed : ¬ xs[i]?.any hit) :
    start marker hit xs (i+1) = start marker hit xs i := by
  have markers : lastMarker marker xs (i+1) = lastMarker marker xs i := Nat.findGreatest_of_not unmarked
  have hits : afterHit hit xs (i+1) = afterHit hit xs i :=
    Nat.findGreatest_of_not fun found => missed (by simpa using found.2)
  rw [start,start,markers,hits]

/-- What is collected before a position. -/
def pending (xs : List α) : Nat → List α
  | 0 => []
  | i+1 => if xs[i]?.any hit then [] else segment xs (start marker hit xs i) i

theorem segment_self {xs : List α} {i : Nat} {x : α} (here : xs[i]? = some x) : segment xs i i = [x] := by
  obtain ⟨inside,_⟩ := List.getElem?_eq_some_iff.mp here
  rw [segment,List.take_add_one,List.drop_append_of_le_length (by simp; omega),here,
    List.drop_of_length_le (List.length_take_le i xs)]
  rfl

theorem segment_succ {xs : List α} {first last : Nat} {x : α} (here : xs[last+1]? = some x) (le : first ≤ last) :
    segment xs first (last+1) = segment xs first last ++ [x] := by
  obtain ⟨inside,_⟩ := List.getElem?_eq_some_iff.mp here
  rw [segment,segment,List.take_add_one,List.drop_append_of_le_length (by simp; omega),here]
  rfl

/-- With an element added to it, it is the segment that ends there. -/
theorem pending_step {xs : List α} {i : Nat} {x : α} (here : xs[i]? = some x) :
    (if marker x then [] else pending marker hit xs i) ++ [x] = segment xs (start marker hit xs i) i := by
  by_cases marked : marker x = true
  · rw [if_pos marked,start_marker marker hit (by simp [here,marked]),segment_self here,List.nil_append]
  · rw [if_neg marked]
    cases i with
    | zero => rw [start_zero,segment_self here]; rfl
    | succ i =>
      by_cases before : xs[i]?.any hit = true
      · rw [pending,if_pos before,start_after marker hit before,segment_self here,List.nil_append]
      · rw [pending,if_neg before,start_within marker hit (by simp [here,marked]) before,
          segment_succ here (start_le marker hit xs i)]

/-- The pass from a position on. -/
theorem segments_from (xs rest before : List α) (split : xs = before ++ rest) :
    segments marker hit (pending marker hit xs before.length) rest =
      ((List.range' before.length rest.length).filter fun i => xs[i]?.any hit).map fun i =>
        segment xs (start marker hit xs i) i := by
  induction rest generalizing before with
  | nil => rfl
  | cons x rest ih =>
    have here : xs[before.length]? = some x := by simp [split]
    have next := ih (before ++ [x]) (by simp [split])
    rw [List.length_append,List.length_singleton] at next
    rw [List.length_cons,List.range'_succ,segments,pending_step marker hit here]
    by_cases found : hit x = true
    · have reset : pending marker hit xs (before.length+1) = [] := by simp [pending,here,found]
      rw [if_pos found,List.filter_cons_of_pos (by simp [here,found]),List.map_cons,← next,reset]
    · have kept : pending marker hit xs (before.length+1) =
        segment xs (start marker hit xs before.length) before.length := by
        simp [pending,here,found]
      rw [if_neg found,List.filter_cons_of_neg (by simp [here,found]),← next,kept]

/-- One pass hands out the segments that end at the hits. -/
theorem segments_eq (xs : List α) :
    segments marker hit [] xs = (hits hit xs).map fun i => segment xs (start marker hit xs i) i := by
  have whole := segments_from marker hit xs xs [] rfl
  rwa [List.length_nil,← List.range_eq_range'] at whole

end Robsd.Segments
