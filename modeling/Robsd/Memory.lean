import Mathlib.Algebra.Group.Nat.Defs
import Mathlib.Logic.Function.Basic

/-!
Memory in the abstract: bytes at addresses, the regions that are allocated, and what a
store changes and leaves alone. Loads and stores outside of what is allocated are
faults.
-/
namespace Robsd.Memory

/-- Some addresses in a row. -/
structure Region where
  addr : Nat
  size : Nat
  deriving DecidableEq

/-- An address belongs to a region. -/
def Region.Has (r : Region) (x : Nat) : Prop := r.addr ≤ x ∧ x < r.addr + r.size

/-- Two regions have no address in common. -/
def Apart (r r' : Region) : Prop := ∀ x, r.Has x → ¬ r'.Has x

/-- One region covers another one. -/
def Region.Covers (r r' : Region) : Prop := r.addr ≤ r'.addr ∧ r'.addr + r'.size ≤ r.addr + r.size

instance (r r' : Region) : Decidable (r.Covers r') := inferInstanceAs (Decidable (_ ∧ _))

theorem Apart.symm {r r' : Region} (apart : Apart r r') : Apart r' r := fun x here there => apart x there here

theorem Apart.mono {r r' q q' : Region} (apart : Apart r r') (first : ∀ x, q.Has x → r.Has x)
    (second : ∀ x, q'.Has x → r'.Has x) :
    Apart q q' := fun x here there => apart x (first x here) (second x there)

theorem Region.Covers.has {r r' : Region} (covers : r.Covers r') {x : Nat} (here : r'.Has x) : r.Has x := by
  unfold Region.Covers at covers
  unfold Region.Has at here ⊢
  omega

/-- Regions that are not empty and apart have all of one before all of the other. -/
theorem Apart.before_or {r r' : Region} (apart : Apart r r') (some_ : 0 < r.size) (some_' : 0 < r'.size) :
    r.addr + r.size ≤ r'.addr ∨ r'.addr + r'.size ≤ r.addr := by
  have first := apart r.addr ⟨Nat.le_refl _,by omega⟩
  have second := apart r'.addr
  unfold Region.Has at first second
  omega

/-! ## Bytes -/

abbrev Bytes := Nat → UInt8

/-- The bytes at some addresses in a row. -/
def read (m : Bytes) : Nat → Nat → List UInt8
  | _, 0 => []
  | a, n+1 => m a :: read m (a+1) n

/-- Some bytes are put at addresses in a row. -/
def store (m : Bytes) : Nat → List UInt8 → Bytes
  | _, [] => m
  | a, b :: bs => store (Function.update m a b) (a+1) bs

@[simp] theorem length_read (m : Bytes) (a n : Nat) : (read m a n).length = n := by
  induction n generalizing a with
  | zero => rfl
  | succ n ih => simp [read,ih]

theorem read_congr {m m' : Bytes} {a n : Nat} (same : ∀ x, a ≤ x → x < a+n → m x = m' x) :
    read m a n = read m' a n := by
  induction n generalizing a with
  | zero => rfl
  | succ n ih =>
    have rest : read m (a+1) n = read m' (a+1) n := ih fun x low high => same x (by omega) (by omega)
    simp only [read,rest,same a (Nat.le_refl a) (by omega)]

theorem read_append (m : Bytes) (a n k : Nat) : read m a (n+k) = read m a n ++ read m (a+n) k := by
  induction n generalizing a with
  | zero => simp [read]
  | succ n ih =>
    have shift : a+1+n = a+(n+1) := by omega
    simp only [Nat.add_right_comm n 1 k,read,ih,List.cons_append,shift]

theorem read_take (m : Bytes) (a : Nat) {k n : Nat} (le : k ≤ n) : (read m a n).take k = read m a k := by
  obtain ⟨more,rfl⟩ := Nat.exists_eq_add_of_le le
  rw [read_append,List.take_left' (length_read ..)]

theorem read_drop (m : Bytes) (a : Nat) {k n : Nat} (le : k ≤ n) : (read m a n).drop k = read m (a+k) (n-k) := by
  obtain ⟨more,rfl⟩ := Nat.exists_eq_add_of_le le
  rw [read_append,List.drop_left' (length_read ..),Nat.add_sub_cancel_left]

theorem store_outside (m : Bytes) {a x : Nat} {bs : List UInt8} (outside : x < a ∨ a + bs.length ≤ x) :
    store m a bs x = m x := by
  induction bs generalizing m a with
  | nil => rfl
  | cons b bs ih =>
    rw [List.length_cons] at outside
    rw [store,ih _ (by omega),Function.update_of_ne (by omega)]

/-- What is stored is read again. -/
theorem read_store (m : Bytes) (a : Nat) (bs : List UInt8) : read (store m a bs) a bs.length = bs := by
  induction bs generalizing m a with
  | nil => rfl
  | cons b bs ih =>
    have here : store (Function.update m a b) (a+1) bs a = b := by
      rw [store_outside _ (.inl (Nat.lt_succ_self a)),Function.update_self]
    simp only [List.length_cons,read,store,here,ih]

/-- A store apart from what is read does not change it. -/
theorem read_store_apart (m : Bytes) {a b n : Nat} {bs : List UInt8} (apart : Apart ⟨a,bs.length⟩ ⟨b,n⟩) :
    read (store m a bs) b n = read m b n := by
  refine read_congr fun x low high => store_outside m ?_
  have out := apart x
  unfold Region.Has at out
  simp only at out
  omega

/-- A store into the midst of what is read changes that part of it. -/
theorem read_store_within (m : Bytes) (a : Nat) {k n : Nat} {bs : List UInt8} (within : k + bs.length ≤ n) :
    read (store m (a+k) bs) a n = (read m a n).take k ++ bs ++ (read m a n).drop (k+bs.length) := by
  obtain ⟨more,rfl⟩ := Nat.exists_eq_add_of_le within
  have head : read (store m (a+k) bs) a k = read m a k := read_congr fun x _ high => store_outside m (.inl high)
  have tail : read (store m (a+k) bs) (a+(k+bs.length)) more = read m (a+(k+bs.length)) more :=
    read_congr fun x low _ => store_outside m (.inr (by omega))
  rw [read_append,read_append _ a k,head,read_store,tail,read_take m a (by omega),read_drop m a (by omega),
    Nat.add_sub_cancel_left]

/-! ## Heaps -/

/-- The regions that are allocated, the last one first, and the bytes of the memory. -/
structure Heap where
  regions : List Region
  bytes : Bytes

/-- Memory that is not in use. -/
def Heap.Fresh (h : Heap) (r : Region) : Prop := ∀ q ∈ h.regions, Apart r q

/-- `malloc`, which has found a place. -/
def Heap.alloc (h : Heap) (r : Region) : Heap := { h with regions := r :: h.regions }

/-- `free`. -/
def Heap.free (h : Heap) (p : Nat) : Option Heap :=
  if h.regions.any (fun r => r.addr = p) then some { h with regions := h.regions.eraseP fun r => r.addr = p } else none

/-- The bytes at a place. -/
def Heap.load (h : Heap) (r : Region) : Option (List UInt8) :=
  if r.size = 0 ∨ ∃ q ∈ h.regions, q.Covers r then some (read h.bytes r.addr r.size) else none

/-- Some bytes are put at a place. -/
def Heap.put (h : Heap) (a : Nat) (bs : List UInt8) : Option Heap :=
  if bs = [] ∨ ∃ q ∈ h.regions, q.Covers ⟨a,bs.length⟩ then some { h with bytes := store h.bytes a bs } else none

theorem Heap.free_last {h : Heap} {r : Region} {rs : List Region} (last : h.regions = r :: rs) :
    h.free r.addr = some { h with regions := rs } := by simp [Heap.free,last]

theorem Heap.load_covered {h : Heap} {r q : Region} (member : q ∈ h.regions) (covers : q.Covers r) :
    h.load r = some (read h.bytes r.addr r.size) := if_pos (.inr ⟨q,member,covers⟩)

theorem Heap.put_covered {h : Heap} {q : Region} {a : Nat} {bs : List UInt8} (member : q ∈ h.regions)
    (covers : q.Covers ⟨a,bs.length⟩) :
    h.put a bs = some { h with bytes := store h.bytes a bs } := if_pos (.inr ⟨q,member,covers⟩)

end Robsd.Memory
