import Mathlib.Data.List.Basic
import Mathlib.Data.List.Count
import Mathlib.Data.List.Nodup

/-!
Lists of bindings that are searched from the front, so that the first binding of
a key hides the later ones. Binding at the end and altering the first binding
act on the value of each key separately, and so do runs of such changes.
-/
namespace Robsd.Bindings
universe u v
variable {κ : Type u} {ν : Type v} [DecidableEq κ]

/-- The value of the first binding of a key. -/
def first (key : κ) : List (κ × ν) → Option ν
  | [] => none
  | b :: bs => if b.1 = key then some b.2 else first key bs

/-- Alters the value of the first binding of a key. -/
def alter (key : κ) (f : ν → ν) : List (κ × ν) → List (κ × ν)
  | [] => []
  | b :: bs => if b.1 = key then (b.1,f b.2) :: bs else b :: alter key f bs

@[simp] theorem first_nil (key : κ) : first key ([] : List (κ × ν)) = none := rfl

theorem first_append (key : κ) (bs cs : List (κ × ν)) : first key (bs ++ cs) = (first key bs).or (first key cs) := by
  induction bs with
  | nil => simp
  | cons b bs ih =>
    by_cases same : b.1 = key
    · simp [first,same]
    · simp [first,same,ih]

theorem first_singleton (key key' : κ) (value : ν) :
    first key [(key',value)] = if key' = key then some value else none := rfl

theorem first_none {key : κ} {bs : List (κ × ν)} : first key bs = none ↔ ∀ b ∈ bs, b.1 ≠ key := by
  induction bs with
  | nil => simp
  | cons b bs ih =>
    by_cases same : b.1 = key
    · simp [first,same]
    · simp [first,same,ih]

theorem first_alter (key key' : κ) (f : ν → ν) (bs : List (κ × ν)) :
    first key (alter key' f bs) = if key' = key then (first key bs).map f else first key bs := by
  induction bs with
  | nil => simp [alter]
  | cons b bs ih =>
    by_cases here : b.1 = key'
    · by_cases same : key' = key
      · simp [alter,first,here,same]
      · simp [alter,first,here,same]
    · by_cases same : key' = key
      · subst same
        simpa [alter,first,here] using ih
      · by_cases asked : b.1 = key
        · rw [alter,if_neg here]
          simp [first,same,asked]
        · simpa [alter,first,here,same,asked] using ih

/-! ## Repetition -/

/-- How many bindings a key has. -/
def times (key : κ) (bs : List (κ × ν)) : Nat := bs.countP (·.1 = key)

@[simp] theorem times_append (key : κ) (bs cs : List (κ × ν)) : times key (bs ++ cs) = times key bs+times key cs :=
  List.countP_append

@[simp] theorem times_singleton (key key' : κ) (value : ν) :
    times key [(key',value)] = if key' = key then 1 else 0 := by
  simp [times,List.countP_cons]

theorem times_eq_zero {key : κ} {bs : List (κ × ν)} : times key bs = 0 ↔ first key bs = none := by
  simp [times,List.countP_eq_zero,first_none]

theorem times_alter (key key' : κ) (f : ν → ν) (bs : List (κ × ν)) : times key (alter key' f bs) = times key bs := by
  induction bs with
  | nil => rfl
  | cons b bs ih =>
    by_cases here : b.1 = key'
    · simp [alter,times,List.countP_cons,here]
    · simpa [alter,times,List.countP_cons,here] using ih

/-- No key is repeated by bindings of different keys. -/
theorem times_le_one {key : κ} {bs : List (κ × ν)} (once : (bs.map Prod.fst).Nodup) : times key bs ≤ 1 := by
  have counted : times key bs = (bs.map Prod.fst).count key := by
    rw [List.count_eq_countP,List.countP_map]
    exact List.countP_congr fun b _ => by simp
  exact counted ▸ List.nodup_iff_count_le_one.mp once key

/-! ## Changes -/

/-- A change to the bindings: a new one at the end, or the first one of a key
    altered after a given one was put in place where the key has none. -/
inductive Change (κ : Type u) (ν : Type v) where
  | bind (key : κ) (value : ν)
  | grow (key : κ) (initial : ν) (f : ν → ν)

def Change.apply : Change κ ν → List (κ × ν) → List (κ × ν)
  | .bind key value,bs => bs ++ [(key,value)]
  | .grow key initial f,bs => alter key f (if first key bs = none then bs ++ [(key,initial)] else bs)

/-- What a change does to the value of one key. -/
def Change.act (key : κ) : Change κ ν → Option ν → Option ν
  | .bind key' value,old => old.or (if key' = key then some value else none)
  | .grow key' initial f,old => if key' = key then some (f (old.getD initial)) else old

theorem first_apply (key : κ) (c : Change κ ν) (bs : List (κ × ν)) :
    first key (c.apply bs) = c.act key (first key bs) := by
  cases c with
  | bind key' value => simp [Change.apply,Change.act,first_append,first_singleton]
  | grow key' initial f =>
    simp only [Change.apply,Change.act,first_alter]
    by_cases same : key' = key
    · subst same
      cases found : first key' bs with
      | none => simp [first_append,first_singleton,found]
      | some value => simp [found]
    · simp only [same,↓reduceIte]
      split
      · simp [first_append,first_singleton,same]
      · rfl

/-- A new binding is one more of its key, and altering makes one where there is none. -/
theorem times_apply (key : κ) (c : Change κ ν) (bs : List (κ × ν)) :
    times key (c.apply bs) = match c with
      | .bind key' _ => times key bs+(if key' = key then 1 else 0)
      | .grow key' _ _ => if key' = key then max 1 (times key bs) else times key bs := by
  cases c with
  | bind key' value => simp [Change.apply]
  | grow key' initial f =>
    simp only [Change.apply,times_alter]
    by_cases same : key' = key
    · subst same
      by_cases unset : first key' bs = none
      · simp [unset,times_eq_zero.mpr unset]
      · have := mt times_eq_zero.mp unset
        simp only [unset,↓reduceIte]
        omega
    · split <;> simp [same]

/-- A run of changes, the first one first. -/
def applyAll (cs : List (Change κ ν)) (bs : List (κ × ν)) : List (κ × ν) := cs.foldl (fun bs c => c.apply bs) bs

theorem applyAll_append (cs ds : List (Change κ ν)) (bs : List (κ × ν)) :
    applyAll (cs ++ ds) bs = applyAll ds (applyAll cs bs) := by
  simp [applyAll]

theorem first_applyAll (key : κ) (cs : List (Change κ ν)) (bs : List (κ × ν)) :
    first key (applyAll cs bs) = cs.foldl (fun old c => c.act key old) (first key bs) := by
  induction cs generalizing bs with
  | nil => rfl
  | cons c cs ih => simpa only [applyAll,List.foldl_cons,first_apply] using ih (c.apply bs)

/-- The key a change is about. -/
def Change.key : Change κ ν → κ
  | .bind key _ => key
  | .grow key _ _ => key

theorem act_other {key : κ} {c : Change κ ν} (other : c.key ≠ key) (old : Option ν) : c.act key old = old := by
  cases c with
  | bind key' value => simp [Change.act,show key' ≠ key from other]
  | grow key' initial f => simp [Change.act,show key' ≠ key from other]

/-- Only the changes about a key matter for its value. -/
theorem foldl_act_filter (key : κ) (cs : List (Change κ ν)) (old : Option ν) :
    cs.foldl (fun old c => c.act key old) old =
      (cs.filter fun c => c.key = key).foldl (fun old c => c.act key old) old := by
  induction cs generalizing old with
  | nil => rfl
  | cons c cs ih =>
    by_cases same : c.key = key
    · simp [same,ih]
    · simp [same,ih,act_other same]

/-- Nothing is bound by changes about other keys. -/
theorem first_applyAll_other {key : κ} {cs : List (Change κ ν)} (other : ∀ c ∈ cs, c.key ≠ key) (bs : List (κ × ν)) :
    first key (applyAll cs bs) = first key bs := by
  rw [first_applyAll,foldl_act_filter,List.filter_eq_nil_iff.mpr (by simpa using other)]
  rfl

/-- A key that is bound keeps its value under new bindings. -/
theorem foldl_bind_some (key : κ) (values : List ν) (value : ν) :
    (values.map (Change.bind key)).foldl (fun old c => c.act key old) (some value) = some value := by
  induction values with
  | nil => rfl
  | cons w values ih => simpa [Change.act] using ih

/-- Of several new bindings of a key, the first one counts. -/
theorem foldl_bind (key : κ) (values : List ν) :
    (values.map (Change.bind key)).foldl (fun old c => c.act key old) none = values.head? := by
  cases values with
  | nil => rfl
  | cons w values => simpa [Change.act] using foldl_bind_some key values w

end Robsd.Bindings
