import Mathlib.Data.List.Basic
import Mathlib.Data.List.Induction
import Mathlib.Data.List.Nodup
import Mathlib.Logic.Function.Basic

/-!
Doubly linked lists through the nodes of a store. A node may have the links of
several lists, one `Thread` for each, and an operation on one of them leaves alone
all that can be observed without its links (`Frame`). Places that hold no node must
not be read, written or released.
-/
namespace Robsd.Links
variable {P N : Type}

/-- The node at each place, none where nothing is allocated. -/
abbrev Store (P N : Type) := P → Option N

/-- The links of one list. -/
structure Thread (P N : Type) where
  prev : N → Option P
  next : N → Option P
  setPrev : Option P → N → N
  setNext : Option P → N → N
  prev_setPrev : ∀ q n, prev (setPrev q n) = q
  next_setPrev : ∀ q n, next (setPrev q n) = next n
  prev_setNext : ∀ q n, prev (setNext q n) = prev n
  next_setNext : ∀ q n, next (setNext q n) = q

attribute [simp] Thread.prev_setPrev Thread.next_setPrev Thread.prev_setNext Thread.next_setNext

/-- An observation of a node that does not depend on the links of a list. -/
structure Thread.Blind (t : Thread P N) {β : Type} (g : N → β) : Prop where
  setPrev : ∀ q n, g (t.setPrev q n) = g n
  setNext : ∀ q n, g (t.setNext q n) = g n

/-- Two stores with the same nodes but for the links of a list. -/
def Thread.Frame (t : Thread P N) (s s' : Store P N) : Prop :=
  ∀ (β : Type) (g : N → β), t.Blind g → ∀ p, (s' p).map g = (s p).map g

theorem Thread.Frame.refl (t : Thread P N) (s : Store P N) : t.Frame s s := fun _ _ _ _ => rfl

theorem Thread.Frame.trans {t : Thread P N} {s s' s'' : Store P N} (first : t.Frame s s') (second : t.Frame s' s'') :
    t.Frame s s'' := fun β g blind p => (second β g blind p).trans (first β g blind p)

/-- The same places are allocated. -/
theorem Thread.Frame.live {t : Thread P N} {s s' : Store P N} (frame : t.Frame s s') (p : P) :
    (s' p).isSome = (s p).isSome := by
  have same := frame Unit (fun _ => ()) ⟨fun _ _ => rfl,fun _ _ => rfl⟩ p
  cases here : s p <;> cases there : s' p <;> simp [here,there] at same ⊢

/-! ## Lists -/

/-- The place at which a list begins that goes on to another place. -/
def first : List P → Option P → Option P
  | [], e => e
  | x :: _, _ => some x

/-- The place at which a list ends that comes from another place. -/
def last : Option P → List P → Option P
  | b, [] => b
  | _, x :: xs => last (some x) xs

/-- The nodes at some places are linked in their order, the first one back to a
    place and the last one on to a place. -/
def Thread.Seg (t : Thread P N) (s : Store P N) : Option P → List P → Option P → Prop
  | _, [], _ => True
  | b, x :: xs, e => (s x).map t.prev = some b ∧ (s x).map t.next = some (first xs e) ∧ t.Seg s (some x) xs e

@[simp] theorem first_nil (e : Option P) : first [] e = e := rfl

@[simp] theorem first_cons (x : P) (xs : List P) (e : Option P) : first (x :: xs) e = some x := rfl

theorem first_none (xs : List P) : first xs none = xs.head? := by cases xs <;> rfl

@[simp] theorem first_append (xs ys : List P) (e : Option P) : first (xs ++ ys) e = first xs (first ys e) := by
  cases xs <;> rfl

@[simp] theorem last_nil (b : Option P) : last b [] = b := rfl

@[simp] theorem last_append (b : Option P) (xs ys : List P) : last b (xs ++ ys) = last (last b xs) ys := by
  induction xs generalizing b with
  | nil => rfl
  | cons x xs ih => exact ih (some x)

@[simp] theorem last_singleton (b : Option P) (x : P) : last b [x] = some x := rfl

theorem last_none (xs : List P) : last none xs = xs.getLast? := by
  induction xs using List.reverseRecOn with
  | nil => rfl
  | append_singleton xs x _ => simp

theorem first_eq_none {xs : List P} : first xs none = none ↔ xs = [] := by cases xs <;> simp

theorem last_eq_none {xs : List P} : last none xs = none ↔ xs = [] := by rw [last_none,List.getLast?_eq_none_iff]

theorem last_cons (b : Option P) (x : P) (xs : List P) : last b (x :: xs) = last (some x) xs := rfl

theorem last_base {xs : List P} (some_ : xs ≠ []) (b b' : Option P) : last b xs = last b' xs := by
  cases xs with
  | nil => exact absurd rfl some_
  | cons x xs => rfl

theorem first_mem {x : P} (begins : first xs none = some x) : x ∈ xs := by
  cases xs with
  | nil => cases begins
  | cons y ys =>
    cases begins
    exact List.mem_cons_self

theorem last_mem {x : P} (ends : last none xs = some x) : x ∈ xs := by
  rw [last_none] at ends
  exact List.mem_of_getLast? ends

section
variable {t : Thread P N} {s s' : Store P N} {b e : Option P} {xs ys zs : List P}

theorem seg_append : t.Seg s b (xs ++ ys) e ↔ t.Seg s b xs (first ys e) ∧ t.Seg s (last b xs) ys e := by
  induction xs generalizing b with
  | nil => simp [Thread.Seg]
  | cons x xs ih => simp only [List.cons_append,Thread.Seg,first_append,ih,last,and_assoc]

/-- A list depends on the links of its own nodes only. -/
theorem seg_congr (same : ∀ x ∈ xs, (s' x).map t.prev = (s x).map t.prev ∧ (s' x).map t.next = (s x).map t.next)
    (seg : t.Seg s b xs e) : t.Seg s' b xs e := by
  induction xs generalizing b with
  | nil => trivial
  | cons x xs ih =>
    obtain ⟨back,on,later⟩ := seg
    obtain ⟨prev,next⟩ := same x List.mem_cons_self
    exact ⟨prev.trans back,next.trans on,ih (fun y member => same y (List.mem_cons_of_mem _ member)) later⟩

/-- An operation on one list leaves another list alone. -/
theorem seg_frame {u : Thread P N} (frame : u.Frame s s') (prev : u.Blind t.prev) (next : u.Blind t.next)
    (seg : t.Seg s b xs e) : t.Seg s' b xs e :=
  seg_congr (fun x _ => ⟨frame _ _ prev x,frame _ _ next x⟩) seg

/-- Every node of a list is there. -/
theorem seg_live (seg : t.Seg s b xs e) : ∀ x ∈ xs, (s x).isSome := by
  induction xs generalizing b with
  | nil => nofun
  | cons x xs ih =>
    obtain ⟨back,_,later⟩ := seg
    intro y member
    rcases List.mem_cons.mp member with rfl | member
    · cases here : s y with
      | none => simp [here] at back
      | some n => rfl
    · exact ih later y member

/-- What follows a node of a list. -/
theorem seg_next {x : P} (seg : t.Seg s b (xs ++ x :: ys) e) : (s x).map t.next = some (first ys e) :=
  (seg_append.mp seg).2.2.1

/-- What precedes a node of a list. -/
theorem seg_prev {x : P} (seg : t.Seg s b (xs ++ x :: ys) e) : (s x).map t.prev = some (last b xs) :=
  (seg_append.mp seg).2.1

end

/-! ## Writing and releasing -/

section
variable [DecidableEq P]

/-- The node at a place is changed. -/
def write (s : Store P N) (p : P) (f : N → N) : Option (Store P N) :=
  (s p).map fun n => Function.update s p (some (f n))

/-- The node at a place is written, if there is a place. -/
def writeAt (s : Store P N) (p : Option P) (f : N → N) : Option (Store P N) :=
  match p with
  | none => some s
  | some p => write s p f

/-- The node at a place is freed. -/
def release (s : Store P N) (p : P) : Option (Store P N) := (s p).map fun _ => Function.update s p none

variable {t : Thread P N} {s s' : Store P N} {p : P} {n : N} {f : N → N}

theorem write_live (here : s p = some n) : write s p f = some (Function.update s p (some (f n))) := by
  rw [write,here]
  rfl

theorem write_there (run : write s p f = some s') : (s' p) = (s p).map f ∧ (s p).isSome := by
  obtain ⟨n,here,rfl⟩ := Option.map_eq_some_iff.mp run
  simp [here]

theorem write_elsewhere (run : write s p f = some s') {x : P} (other : x ≠ p) : s' x = s x := by
  obtain ⟨n,here,rfl⟩ := Option.map_eq_some_iff.mp run
  exact Function.update_of_ne other _ _

/-- Changing a node in a way that an observation does not see. -/
theorem write_blind {β : Type} {g : N → β} (run : write s p f = some s') (same : ∀ n, g (f n) = g n) (x : P) :
    (s' x).map g = (s x).map g := by
  by_cases here : x = p
  · subst here
    rw [(write_there run).1,Option.map_map]
    congr 1
    funext n
    exact same n
  · rw [write_elsewhere run here]

theorem write_prev_frame {q : Option P} (run : write s p (t.setPrev q) = some s') : t.Frame s s' :=
  fun _ _ blind x => write_blind run (fun n => blind.setPrev q n) x

theorem write_next_frame {q : Option P} (run : write s p (t.setNext q) = some s') : t.Frame s s' :=
  fun _ _ blind x => write_blind run (fun n => blind.setNext q n) x

/-! ## Operations on a list -/

/-- A node that is in no list is put at the head of one. -/
def Thread.push (t : Thread P N) (s : Store P N) (head : Option P) (add : P) : Option (Store P N) := do
  let s ← write s add (t.setNext head)
  let s ← write s add (t.setPrev none)
  writeAt s head (t.setPrev (some add))

/-- A node that is in no list is put behind the tail of one. -/
def Thread.append (t : Thread P N) (s : Store P N) (tail add : P) : Option (Store P N) := do
  let s ← write s add (t.setNext none)
  let s ← write s add (t.setPrev (some tail))
  write s tail (t.setNext (some add))

/-- The neighbours of a node are linked to each other. -/
def Thread.unlink (t : Thread P N) (s : Store P N) (del : P) : Option (Store P N) := do
  let n ← s del
  let s ← writeAt s (t.prev n) (t.setNext (t.next n))
  writeAt s (t.next n) (t.setPrev (t.prev n))

variable {xs ys zs : List P} {b e : Option P}

theorem writeAt_live {q : Option P} (live : ∀ p, q = some p → (s p).isSome) : ∃ s', writeAt s q f = some s' := by
  cases q with
  | none => exact ⟨s,rfl⟩
  | some p =>
    obtain ⟨n,here⟩ := Option.isSome_iff_exists.mp (live p rfl)
    exact ⟨_,write_live here⟩

/-- Writing the forward link at the end of a list. -/
theorem seg_setNext {e' : Option P} (seg : t.Seg s b xs e) (once : xs.Nodup)
    (run : writeAt s (last none xs) (t.setNext e') = some s') : t.Seg s' b xs e' := by
  induction xs using List.reverseRecOn with
  | nil => trivial
  | append_singleton xs x _ =>
    rw [last_append,last_singleton] at run
    obtain ⟨before,back,on,_⟩ := seg_append.mp seg
    have away : x ∉ xs := by
      intro member
      exact (List.nodup_append.mp once).2.2 x member x (List.mem_singleton.mpr rfl) rfl
    refine seg_append.mpr ⟨seg_congr ?_ before,?_,?_,trivial⟩
    · intro y member
      rw [write_elsewhere run (fun same => away (same ▸ member))]
      exact ⟨rfl,rfl⟩
    · rw [write_blind run (fun n => t.prev_setNext e' n)]
      exact back
    · obtain ⟨there,live⟩ := write_there run
      obtain ⟨n,here⟩ := Option.isSome_iff_exists.mp live
      simp [there,here]

/-- Writing the backward link at the beginning of a list. -/
theorem seg_setPrev {b' : Option P} (seg : t.Seg s b xs e) (once : xs.Nodup)
    (run : writeAt s (first xs none) (t.setPrev b') = some s') : t.Seg s' b' xs e := by
  cases xs with
  | nil => trivial
  | cons x xs =>
    obtain ⟨back,on,later⟩ := seg
    have away : x ∉ xs := (List.nodup_cons.mp once).1
    refine ⟨?_,?_,seg_congr ?_ later⟩
    · obtain ⟨there,live⟩ := write_there run
      obtain ⟨n,here⟩ := Option.isSome_iff_exists.mp live
      simp [there,here]
    · rw [write_blind run (fun n => t.next_setPrev b' n)]
      exact on
    · intro y member
      rw [write_elsewhere run (fun same => away (same ▸ member))]
      exact ⟨rfl,rfl⟩

theorem writeAt_next_frame {q e : Option P} (run : writeAt s q (t.setNext e) = some s') : t.Frame s s' := by
  cases q with
  | none =>
    cases run
    exact .refl t s
  | some p => exact write_next_frame run

theorem writeAt_prev_frame {q e : Option P} (run : writeAt s q (t.setPrev e) = some s') : t.Frame s s' := by
  cases q with
  | none =>
    cases run
    exact .refl t s
  | some p => exact write_prev_frame run

theorem writeAt_elsewhere {q : Option P} (run : writeAt s q f = some s') {x : P} (other : q ≠ some x) : s' x = s x := by
  cases q with
  | none =>
    cases run
    rfl
  | some p => exact write_elsewhere run (fun same => other (same ▸ rfl))

/-- What an operation on a list leads to: the nodes are linked in a new order, and
    the other nodes are as they were. -/
structure Thread.Became (t : Thread P N) (s s' : Store P N) (touched xs : List P) : Prop where
  seg : t.Seg s' none xs none
  frame : t.Frame s s'
  elsewhere : ∀ x, x ∉ touched → s' x = s x

theorem push_became {add : P} (seg : t.Seg s none xs none) (once : xs.Nodup) (fresh : add ∉ xs)
    (live : (s add).isSome) :
    ∃ s', t.push s (first xs none) add = some s' ∧ t.Became s s' (add :: xs) (add :: xs) := by
  obtain ⟨n,here⟩ := Option.isSome_iff_exists.mp live
  obtain ⟨s1,first1⟩ : ∃ s1, write s add (t.setNext (first xs none)) = some s1 := ⟨_,write_live here⟩
  have frame1 := write_next_frame first1
  obtain ⟨n1,here1⟩ := Option.isSome_iff_exists.mp ((frame1.live add).trans live)
  obtain ⟨s2,first2⟩ : ∃ s2, write s1 add (t.setPrev none) = some s2 := ⟨_,write_live here1⟩
  have frame2 := frame1.trans (write_prev_frame first2)
  have kept : ∀ x, x ≠ add → s2 x = s x := fun x other =>
    (write_elsewhere first2 other).trans (write_elsewhere first1 other)
  have seg2 : t.Seg s2 none xs none := by
    refine seg_congr ?_ seg
    intro x member
    rw [kept x (fun same => fresh (same ▸ member))]
    exact ⟨rfl,rfl⟩
  obtain ⟨s3,first3⟩ : ∃ s3, writeAt s2 (first xs none) (t.setPrev (some add)) = some s3 :=
    writeAt_live fun p begins => seg_live seg2 p (first_mem begins)
  have away : first xs none ≠ some add := fun begins => fresh (first_mem begins)
  have next2 : (s2 add).map t.next = some (first xs none) := by
    rw [write_blind first2 (fun n => t.next_setPrev none n)]
    simp [(write_there first1).1,here]
  have prev2 : (s2 add).map t.prev = some none := by
    simp [(write_there first2).1,here1]
  have seg3 : t.Seg s3 (some add) xs none := seg_setPrev seg2 once first3
  refine ⟨s3,by simp only [Thread.push,first1,first2,first3,Option.bind_eq_bind,Option.bind_some],⟨?_,?_,?_⟩⟩
  · refine ⟨?_,?_,seg3⟩
    · rw [writeAt_elsewhere first3 away]
      exact prev2
    · rw [writeAt_elsewhere first3 away]
      exact next2
  · exact frame2.trans (writeAt_prev_frame first3)
  · intro x out
    obtain ⟨other,outside⟩ := not_or.mp (List.mem_cons.not.mp out)
    rw [writeAt_elsewhere first3 (fun begins => outside (first_mem begins)),kept x other]

theorem append_became {add tail : P} (seg : t.Seg s none xs none) (once : xs.Nodup) (ends : last none xs = some tail)
    (fresh : add ∉ xs) (live : (s add).isSome) :
    ∃ s', t.append s tail add = some s' ∧ t.Became s s' (add :: xs) (xs ++ [add]) := by
  obtain ⟨n,here⟩ := Option.isSome_iff_exists.mp live
  obtain ⟨s1,first1⟩ : ∃ s1, write s add (t.setNext none) = some s1 := ⟨_,write_live here⟩
  have frame1 := write_next_frame first1
  obtain ⟨n1,here1⟩ := Option.isSome_iff_exists.mp ((frame1.live add).trans live)
  obtain ⟨s2,first2⟩ : ∃ s2, write s1 add (t.setPrev (some tail)) = some s2 := ⟨_,write_live here1⟩
  have frame2 := frame1.trans (write_prev_frame first2)
  have kept : ∀ x, x ≠ add → s2 x = s x := fun x other =>
    (write_elsewhere first2 other).trans (write_elsewhere first1 other)
  have seg2 : t.Seg s2 none xs none := by
    refine seg_congr ?_ seg
    intro x member
    rw [kept x (fun same => fresh (same ▸ member))]
    exact ⟨rfl,rfl⟩
  obtain ⟨s3,first3⟩ : ∃ s3, writeAt s2 (last none xs) (t.setNext (some add)) = some s3 :=
    writeAt_live fun p ends => seg_live seg2 p (last_mem ends)
  have away : last none xs ≠ some add := fun ends => fresh (last_mem ends)
  have next2 : (s2 add).map t.next = some none := by
    rw [write_blind first2 (fun n => t.next_setPrev (some tail) n)]
    simp [(write_there first1).1,here]
  have prev2 : (s2 add).map t.prev = some (some tail) := by
    simp [(write_there first2).1,here1]
  have run3 : write s2 tail (t.setNext (some add)) = some s3 := by
    rw [ends] at first3
    exact first3
  refine ⟨s3,by simp only [Thread.append,first1,first2,run3,Option.bind_eq_bind,Option.bind_some],⟨?_,?_,?_⟩⟩
  · refine seg_append.mpr ⟨seg_setNext seg2 once first3,?_,?_,trivial⟩
    · rw [writeAt_elsewhere first3 away,ends]
      exact prev2
    · rw [writeAt_elsewhere first3 away]
      exact next2
  · exact frame2.trans (writeAt_next_frame first3)
  · intro x out
    obtain ⟨other,outside⟩ := not_or.mp (List.mem_cons.not.mp out)
    rw [writeAt_elsewhere first3 (fun ends => outside (last_mem ends)),kept x other]

theorem unlink_became {del : P} (seg : t.Seg s none (xs ++ del :: ys) none) (once : (xs ++ del :: ys).Nodup) :
    ∃ s', t.unlink s del = some s' ∧ t.Became s s' (xs ++ ys) (xs ++ ys) := by
  obtain ⟨n,here⟩ := Option.isSome_iff_exists.mp (seg_live seg del (by simp))
  have prev : t.prev n = last none xs := by simpa [here] using seg_prev seg
  have next : t.next n = first ys none := by simpa [here] using seg_next seg
  obtain ⟨before,_,_,behind⟩ := seg_append.mp seg
  obtain ⟨onceL,onceR,apart⟩ := List.nodup_append.mp once
  obtain ⟨_,onceY⟩ := List.nodup_cons.mp onceR
  obtain ⟨s1,run1⟩ : ∃ s1, writeAt s (last none xs) (t.setNext (first ys none)) = some s1 :=
    writeAt_live fun p ends => seg_live before p (last_mem ends)
  have kept1 : ∀ x, x ∉ xs → s1 x = s x := fun x outside => writeAt_elsewhere run1 (fun ends => outside (last_mem ends))
  have behind1 : t.Seg s1 (some del) ys none := by
    refine seg_congr ?_ behind
    intro x member
    rw [kept1 x (fun also => apart x also x (List.mem_cons_of_mem _ member) rfl)]
    exact ⟨rfl,rfl⟩
  obtain ⟨s2,run2⟩ : ∃ s2, writeAt s1 (first ys none) (t.setPrev (last none xs)) = some s2 :=
    writeAt_live fun p begins => seg_live behind1 p (first_mem begins)
  have kept2 : ∀ x, x ∉ ys → s2 x = s1 x := fun x outside =>
    writeAt_elsewhere run2 (fun begins => outside (first_mem begins))
  refine ⟨s2,?_,⟨?_,?_,?_⟩⟩
  · simp only [Thread.unlink,here,prev,next,run1,run2,Option.bind_eq_bind,Option.bind_some]
  · refine seg_append.mpr ⟨?_,seg_setPrev behind1 onceY run2⟩
    refine seg_congr ?_ (seg_setNext before onceL run1)
    intro x member
    rw [kept2 x (fun also => apart x member x (List.mem_cons_of_mem _ also) rfl)]
    exact ⟨rfl,rfl⟩
  · exact (writeAt_next_frame run1).trans (writeAt_prev_frame run2)
  · intro x out
    obtain ⟨outX,outY⟩ := not_or.mp (List.mem_append.not.mp out)
    rw [kept2 x outY,kept1 x outX]

/-- Releasing a node that is not in a list. -/
theorem seg_release {p : P} (run : release s p = some s') (outside : p ∉ xs) (seg : t.Seg s b xs e) :
    t.Seg s' b xs e := by
  obtain ⟨n,_,rfl⟩ := Option.map_eq_some_iff.mp run
  refine seg_congr ?_ seg
  intro x member
  have other : x ≠ p := fun same => outside (same ▸ member)
  rw [Function.update_of_ne other]
  exact ⟨rfl,rfl⟩

end
end Robsd.Links
