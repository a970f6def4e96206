import Robsd.HashMap

/-!
What the table of a map holds (map.c): each bucket has the list of the elements that
hash to it, all elements are in one list in the order of their insertion, and an
expansion moves every element to its new bucket (`expand_holds`).
-/
namespace Robsd.HashTable
open Robsd.Links Robsd.HashMap
variable {P V : Type}

/-- The bucket of an element among so many. -/
def slot (heap : Store P (Element P V)) (nbuckets : Nat) (p : P) : Option Nat :=
  (heap p).map fun n => hashToBkt n.hashv nbuckets

/-- What a user of the map sees of an element. -/
def data (n : Element P V) : List UInt8 × UInt32 × V := (n.key,n.hashv,n.val)

theorem app_data : (app (P := P) (V := V)).Blind data := ⟨fun _ _ => rfl,fun _ _ => rfl⟩

theorem hh_data : (hh (P := P) (V := V)).Blind data := ⟨fun _ _ => rfl,fun _ _ => rfl⟩

theorem hh_app_prev : (hh (P := P) (V := V)).Blind app.prev := ⟨fun _ _ => rfl,fun _ _ => rfl⟩

theorem hh_app_next : (hh (P := P) (V := V)).Blind app.next := ⟨fun _ _ => rfl,fun _ _ => rfl⟩

theorem app_hh_prev : (app (P := P) (V := V)).Blind hh.prev := ⟨fun _ _ => rfl,fun _ _ => rfl⟩

theorem app_hh_next : (app (P := P) (V := V)).Blind hh.next := ⟨fun _ _ => rfl,fun _ _ => rfl⟩

theorem hh_slot (nbuckets : Nat) : (hh (P := P) (V := V)).Blind fun n => hashToBkt n.hashv nbuckets :=
  ⟨fun _ _ => rfl,fun _ _ => rfl⟩

theorem app_slot (nbuckets : Nat) : (app (P := P) (V := V)).Blind fun n => hashToBkt n.hashv nbuckets :=
  ⟨fun _ _ => rfl,fun _ _ => rfl⟩

theorem hashToBkt_lt {hashv : UInt32} {nbuckets : Nat} (positive : 0 < nbuckets) :
    hashToBkt hashv nbuckets < nbuckets := by
  have within : hashv.toNat &&& (nbuckets-1) ≤ nbuckets-1 := Nat.and_le_right
  unfold hashToBkt
  omega

/-! ## Buckets -/

/-- A bucket has the elements of a chain. -/
structure BucketHolds (heap : Store P (Element P V)) (bkt : Bucket P) (chain : List P) : Prop where
  once : chain.Nodup
  seg : hh.Seg heap none chain none
  head : bkt.hhHead = first chain none
  count : bkt.count = chain.length

/-- The buckets have some elements, each one in the chain that it hashes to. -/
structure BucketsHold (heap : Store P (Element P V)) (buckets : List (Bucket P)) (nbuckets : Nat) (order : List P)
    (chains : Nat → List P) : Prop where
  size : buckets.length = nbuckets
  bucket : ∀ i bkt, buckets[i]? = some bkt → BucketHolds heap bkt (chains i)
  members : ∀ i, i < nbuckets → ∀ p, p ∈ chains i ↔ p ∈ order ∧ slot heap nbuckets p = some i

section
variable {heap heap' : Store P (Element P V)} {buckets : List (Bucket P)} {nbuckets : Nat} {order order' : List P}
  {chains : Nat → List P}

theorem bucketsHold_congr (holds : BucketsHold heap buckets nbuckets order chains)
    (same : ∀ p, p ∈ order' ↔ p ∈ order) :
    BucketsHold heap buckets nbuckets order' chains :=
  ⟨holds.size,holds.bucket,fun i within p => by rw [holds.members i within p,same p]⟩

/-- What changes neither the chains nor the hashes leaves the buckets alone. -/
theorem bucketsHold_frame (holds : BucketsHold heap buckets nbuckets order chains)
    (links : ∀ p ∈ order, (heap' p).map hh.prev = (heap p).map hh.prev ∧ (heap' p).map hh.next = (heap p).map hh.next)
    (hashes : ∀ p ∈ order, slot heap' nbuckets p = slot heap nbuckets p) :
    BucketsHold heap' buckets nbuckets order chains := by
  refine ⟨holds.size,?_,?_⟩
  · intro i bkt found
    have within : i < nbuckets := holds.size ▸ (List.getElem?_eq_some_iff.mp found).1
    have bucket := holds.bucket i bkt found
    exact ⟨bucket.once,seg_congr (fun x member => links x ((holds.members i within x).mp member).1) bucket.seg,
      bucket.head,bucket.count⟩
  · intro i within p
    rw [holds.members i within p]
    apply and_congr_right
    intro member
    rw [hashes p member]

/-- Two chains have no element in common. -/
theorem chains_apart (holds : BucketsHold heap buckets nbuckets order chains) {i j : Nat} (withinI : i < nbuckets)
    (withinJ : j < nbuckets) {p : P} (inI : p ∈ chains i) (inJ : p ∈ chains j) : i = j := by
  have slotI := ((holds.members i withinI p).mp inI).2
  have slotJ := ((holds.members j withinJ p).mp inJ).2
  rw [slotI] at slotJ
  exact Option.some.inj slotJ

/-- Every element is in the chain of a bucket. -/
theorem in_chain (holds : BucketsHold heap buckets nbuckets order chains) (positive : 0 < nbuckets) {p : P}
    (member : p ∈ order) (live : (heap p).isSome) :
    ∃ i bkt, i < nbuckets ∧ slot heap nbuckets p = some i ∧ buckets[i]? = some bkt ∧ p ∈ chains i := by
  obtain ⟨n,here⟩ := Option.isSome_iff_exists.mp live
  have found : slot heap nbuckets p = some (hashToBkt n.hashv nbuckets) := by simp [slot,here]
  have within : hashToBkt n.hashv nbuckets < nbuckets := hashToBkt_lt positive
  have bounded : hashToBkt n.hashv nbuckets < buckets.length := holds.size ▸ within
  refine ⟨_,buckets[hashToBkt n.hashv nbuckets],within,found,?_,(holds.members _ within p).mpr ⟨member,found⟩⟩
  exact List.getElem?_eq_getElem _

variable [DecidableEq P]

/-- An element is put at the head of the chain of its bucket. -/
theorem push_holds (holds : BucketsHold heap buckets nbuckets order chains) {p : P} {i : Nat} {bkt : Bucket P}
    (fresh : p ∉ order) (hashed : slot heap nbuckets p = some i) (found : buckets[i]? = some bkt) :
    ∃ heap', hh.push heap bkt.hhHead p = some heap' ∧ hh.Frame heap heap' ∧ (∀ x, x ∉ p :: order → heap' x = heap x) ∧
      ∀ mult, ∃ chains', BucketsHold heap' (buckets.set i ⟨some p,bkt.count+1,mult⟩) nbuckets (p :: order) chains' := by
  have within : i < nbuckets := holds.size ▸ (List.getElem?_eq_some_iff.mp found).1
  have bucket := holds.bucket i bkt found
  have inside : ∀ x, x ∈ chains i → x ∈ order := fun x member => ((holds.members i within x).mp member).1
  have live : (heap p).isSome := by
    cases here : heap p with
    | none => simp [slot,here] at hashed
    | some n => rfl
  obtain ⟨heap',run,became⟩ := push_became bucket.seg bucket.once (fun member => fresh (inside p member)) live
  have slots : ∀ x, slot heap' nbuckets x = slot heap nbuckets x := became.frame _ _ (hh_slot nbuckets)
  refine ⟨heap',by rw [bucket.head]; exact run,became.frame,fun x out => became.elsewhere x ?_,fun mult =>
    ⟨Function.update chains i (p :: chains i),?_,?_,?_⟩⟩
  · intro member
    rcases List.mem_cons.mp member with rfl | member
    · exact out List.mem_cons_self
    · exact out (List.mem_cons_of_mem _ (inside x member))
  · rw [List.length_set,holds.size]
  · intro j b there
    by_cases same : i = j
    · subst same
      rw [List.getElem?_set_self (holds.size ▸ within)] at there
      cases there
      rw [Function.update_self]
      exact ⟨List.nodup_cons.mpr ⟨fun member => fresh (inside p member),bucket.once⟩,became.seg,rfl,
        by simp [bucket.count]⟩
    · rw [List.getElem?_set_ne same] at there
      rw [Function.update_of_ne (Ne.symm same)]
      have other := holds.bucket j b there
      have within' : j < nbuckets := holds.size ▸ (List.getElem?_eq_some_iff.mp there).1
      refine ⟨other.once,seg_congr ?_ other.seg,other.head,other.count⟩
      intro x member
      have away : x ∉ p :: chains i := by
        intro also
        rcases List.mem_cons.mp also with rfl | also
        · exact fresh ((holds.members j within' x).mp member).1
        · exact same (chains_apart holds within within' also member)
      rw [became.elsewhere x away]
      exact ⟨rfl,rfl⟩
  · intro j within' x
    rw [slots x]
    by_cases same : j = i
    · subst same
      rw [Function.update_self,List.mem_cons,List.mem_cons,holds.members j within x]
      constructor
      · rintro (rfl | ⟨member,here⟩)
        · exact ⟨.inl rfl,hashed⟩
        · exact ⟨.inr member,here⟩
      · rintro ⟨rfl | member,here⟩
        · exact .inl rfl
        · exact .inr ⟨member,here⟩
    · rw [Function.update_of_ne same,holds.members j within' x,List.mem_cons]
      constructor
      · rintro ⟨member,here⟩
        exact ⟨.inr member,here⟩
      · rintro ⟨rfl | member,here⟩
        · rw [hashed] at here
          exact absurd (Option.some.inj here).symm same
        · exact ⟨member,here⟩

/-! ## An expansion -/

variable {s : Spread P V} (ideal : Nat)

theorem spreadElement_holds (holds : BucketsHold s.heap s.buckets nbuckets order chains)
    (positive : 0 < nbuckets) {p : P} (fresh : p ∉ order) (live : (s.heap p).isSome) :
    ∃ s' chains', spreadElement ideal nbuckets s p = some s' ∧
      BucketsHold s'.heap s'.buckets nbuckets (p :: order) chains' ∧
      hh.Frame s.heap s'.heap ∧ ∀ x, x ∉ p :: order → s'.heap x = s.heap x := by
  obtain ⟨n,here⟩ := Option.isSome_iff_exists.mp live
  obtain ⟨bkt,found⟩ : ∃ bkt, s.buckets[hashToBkt n.hashv nbuckets]? = some bkt :=
    ⟨_,List.getElem?_eq_getElem (by rw [holds.size]; exact hashToBkt_lt positive)⟩
  obtain ⟨heap',run,frame,elsewhere,pushed⟩ := push_holds holds fresh (by simp [slot,here]) found
  obtain ⟨mult,nonideal,moved⟩ : ∃ mult nonideal, spreadElement ideal nbuckets s p =
      some ⟨heap',s.buckets.set (hashToBkt n.hashv nbuckets) ⟨some p,bkt.count+1,mult⟩,nonideal⟩ :=
    ⟨_,_,by simp only [spreadElement,here,found,run,Option.bind_eq_bind,Option.bind_some]; rfl⟩
  obtain ⟨chains',holds'⟩ := pushed mult
  exact ⟨_,chains',moved,holds',frame,elsewhere⟩

/-- The elements of a chain are moved one after another: what is still ahead is not
    touched by what has been moved. -/
theorem spreadChain_holds (positive : 0 < nbuckets) {chain : List P} {b : Option P} {k : Nat}
    (holds : BucketsHold s.heap s.buckets nbuckets order chains) (seg : hh.Seg s.heap b chain none) (once : chain.Nodup)
    (apart : ∀ x ∈ chain, x ∉ order) (enough : chain.length ≤ k) :
    ∃ s' chains', spreadChain ideal nbuckets k (first chain none) s = some s' ∧
      BucketsHold s'.heap s'.buckets nbuckets (chain.reverse ++ order) chains' ∧ hh.Frame s.heap s'.heap ∧
      ∀ x, x ∉ chain → x ∉ order → s'.heap x = s.heap x := by
  induction chain generalizing s order chains b k with
  | nil => exact ⟨s,chains,by simp [spreadChain],holds,.refl _ _,fun _ _ _ => rfl⟩
  | cons x xs ih =>
    cases k with
    | zero => simp at enough
    | succ k =>
      obtain ⟨_,on,later⟩ := seg
      obtain ⟨outside,once⟩ := List.nodup_cons.mp once
      obtain ⟨n,here⟩ : ∃ n, s.heap x = some n := by
        cases here : s.heap x with
        | none => simp [here] at on
        | some n => exact ⟨n,rfl⟩
      have next : n.hhNext = first xs none := by simpa [here,hh] using on
      obtain ⟨s1,chains1,run1,holds1,frame1,elsewhere1⟩ :=
        spreadElement_holds ideal holds positive (apart x List.mem_cons_self) (by simp [here])
      have ahead : ∀ y ∈ xs, y ∉ x :: order := by
        intro y member also
        rcases List.mem_cons.mp also with rfl | also
        · exact outside member
        · exact apart y (List.mem_cons_of_mem _ member) also
      have later1 : hh.Seg s1.heap (some x) xs none := by
        refine seg_congr ?_ later
        intro y member
        rw [elsewhere1 y (ahead y member)]
        exact ⟨rfl,rfl⟩
      obtain ⟨s2,chains2,run2,holds2,frame2,elsewhere2⟩ := ih (k := k) holds1 later1 once ahead (by simpa using enough)
      refine ⟨s2,chains2,?_,?_,frame1.trans frame2,?_⟩
      · simp only [spreadChain,first_cons,here,run1,next,Option.bind_eq_bind,Option.bind_some]
        exact run2
      · simpa using holds2
      · intro y out outOrder
        obtain ⟨other,out⟩ := not_or.mp (List.mem_cons.not.mp out)
        have outOrder' : y ∉ x :: order := fun also => (List.mem_cons.mp also).elim other outOrder
        rw [elsewhere2 y out outOrder',elsewhere1 y outOrder']

/-- All buckets of a row are gone through. -/
theorem spread_holds (positive : 0 < nbuckets) {old : List (Bucket P)} {oldChains : Nat → List P} {j : Nat}
    (holds : BucketsHold s.heap s.buckets nbuckets order chains)
    (bucket : ∀ i bkt, old[i]? = some bkt → BucketHolds s.heap bkt (oldChains (j+i)))
    (distinct : ∀ i i', i < old.length → i' < old.length → ∀ x, x ∈ oldChains (j+i) → x ∈ oldChains (j+i') → i = i')
    (apart : ∀ i, i < old.length → ∀ x ∈ oldChains (j+i), x ∉ order) :
    ∃ s' chains' order', old.foldlM (fun s bkt => spreadChain ideal nbuckets bkt.count bkt.hhHead s) s = some s' ∧
      BucketsHold s'.heap s'.buckets nbuckets order' chains' ∧ hh.Frame s.heap s'.heap ∧
      ∀ x, x ∈ order' ↔ x ∈ order ∨ ∃ i, i < old.length ∧ x ∈ oldChains (j+i) := by
  induction old generalizing s order chains j with
  | nil => exact ⟨s,chains,order,rfl,holds,.refl _ _,by simp⟩
  | cons bkt rest ih =>
    have here := bucket 0 bkt rfl
    rw [Nat.add_zero] at here
    obtain ⟨s1,chains1,run1,holds1,frame1,elsewhere1⟩ := spreadChain_holds ideal positive holds here.seg here.once
      (apart 0 (by simp)) (Nat.le_of_eq here.count.symm)
    have shift : ∀ i, j+1+i = j+(i+1) := by omega
    have later : ∀ i, i < rest.length → ∀ x ∈ oldChains (j+1+i), x ∉ oldChains j ∧ x ∉ order := by
      intro i within x member
      rw [shift] at member
      refine ⟨?_,apart (i+1) (by simpa using within) x member⟩
      intro also
      have := distinct 0 (i+1) (by simp) (by simpa using within) x also member
      omega
    obtain ⟨s2,chains2,order2,run2,holds2,frame2,members2⟩ := ih (s := s1) (j := j+1) holds1
      (fun i b found => by
        have within : i < rest.length := (List.getElem?_eq_some_iff.mp found).1
        have there := bucket (i+1) b (by simpa using found)
        rw [← shift] at there
        refine ⟨there.once,seg_congr ?_ there.seg,there.head,there.count⟩
        intro x member
        obtain ⟨out,outOrder⟩ := later i within x member
        rw [elsewhere1 x out outOrder]
        exact ⟨rfl,rfl⟩)
      (fun i i' within within' x member member' => by
        rw [shift] at member member'
        have := distinct (i+1) (i'+1) (by simpa using within) (by simpa using within') x member member'
        omega)
      (fun i within x member also => by
        obtain ⟨out,outOrder⟩ := later i within x member
        rcases List.mem_append.mp also with also | also
        · exact out (List.mem_reverse.mp also)
        · exact outOrder also)
    refine ⟨s2,chains2,order2,?_,holds2,frame1.trans frame2,?_⟩
    · rw [List.foldlM_cons,here.head,run1]
      exact run2
    · intro x
      rw [members2 x,List.mem_append,List.mem_reverse]
      constructor
      · rintro ((member | member) | ⟨i,within,member⟩)
        · exact .inr ⟨0,by simp,member⟩
        · exact .inl member
        · exact .inr ⟨i+1,by simpa using within,shift i ▸ member⟩
      · rintro (member | ⟨i,within,member⟩)
        · exact .inl (.inr member)
        · cases i with
          | zero => exact .inl (.inl member)
          | succ i => exact .inr ⟨i,by simpa using within,(shift i).symm ▸ member⟩

/-! ## A table -/

/-- A table has some elements, in this order. -/
structure TableHolds (heap : Store P (Element P V)) (order : List P) (tbl : Table P) : Prop where
  positive : 0 < tbl.numBuckets
  buckets : ∃ chains, BucketsHold heap tbl.buckets tbl.numBuckets order chains
  items : tbl.numItems = order.length
  tail : tbl.tail = last none order

omit [DecidableEq P] in
/-- Buckets that have just been allocated. -/
theorem zero_holds (heap : Store P (Element P V)) (nbuckets : Nat) :
    BucketsHold heap (List.replicate nbuckets .zero) nbuckets [] fun _ => [] := by
  refine ⟨List.length_replicate,?_,by simp⟩
  intro i bkt found
  rw [List.getElem?_replicate] at found
  split at found
  · cases found
    exact ⟨List.nodup_nil,trivial,rfl,rfl⟩
  · cases found

theorem expand_holds {m : Map P V} {tbl : Table P} (room : Bool) (there : m.table = some tbl)
    (holds : TableHolds m.heap order tbl) (live : ∀ p ∈ order, (m.heap p).isSome) :
    ∃ failed m' tbl', hashExpandBuckets m room = some (failed,m') ∧ m'.head = m.head ∧ hh.Frame m.heap m'.heap ∧
      m'.table = some tbl' ∧ TableHolds m'.heap order tbl' ∧
        (failed = true → room = false ∨ 2^31 ≤ tbl.numBuckets) := by
  obtain ⟨chains,buckets⟩ := holds.buckets
  by_cases full : 2^32 ≤ tbl.numBuckets * 2 ∨ room = false
  · refine ⟨true,m,tbl,?_,rfl,.refl _ _,there,holds,?_⟩
    · have stop : (decide (2^32 ≤ tbl.numBuckets * 2) || !room) = true := by
        rcases full with full | rfl
        · simp only [full,decide_true,Bool.true_or]
        · simp
      simp only [hashExpandBuckets,there,Option.bind_eq_bind,Option.bind_some,stop,↓reduceIte]
      rfl
    · intro _
      rcases full with full | none
      · exact .inr (by omega)
      · exact .inl none
  · obtain ⟨fits,some_⟩ := not_or.mp full
    have positive : 0 < tbl.numBuckets * 2 := by
      have := holds.positive
      omega
    have same : ∀ i i', i < tbl.buckets.length → i' < tbl.buckets.length → ∀ x, x ∈ chains (0+i) →
      x ∈ chains (0+i') → i = i' := by
      intro i i' within within' x member member'
      rw [buckets.size] at within within'
      rw [Nat.zero_add] at member member'
      exact chains_apart buckets within within' member member'
    obtain ⟨s,chains',order',run,holds',frame,members⟩ := spread_holds
      ((tbl.numItems >>> (tbl.log2NumBuckets+1)) + if tbl.numItems &&& (tbl.numBuckets*2-1) ≠ 0 then 1 else 0)
      (s := ⟨m.heap,List.replicate (tbl.numBuckets*2) .zero,0⟩) (j := 0) positive
      (zero_holds m.heap (tbl.numBuckets*2)) (fun i bkt found =>
        by rw [Nat.zero_add]; exact buckets.bucket i bkt found) same
      (fun _ _ _ _ => List.not_mem_nil)
    have all : ∀ x, x ∈ order ↔ x ∈ order' := by
      intro x
      rw [members x]
      constructor
      · intro member
        obtain ⟨i,_,within,_,_,inside⟩ := in_chain buckets holds.positive member (live x member)
        exact .inr ⟨i,buckets.size ▸ within,by rw [Nat.zero_add]; exact inside⟩
      · rintro (member | ⟨i,within,member⟩)
        · cases member
        · rw [Nat.zero_add] at member
          exact ((buckets.members i (buckets.size ▸ within) x).mp member).1
    have go : (decide (2^32 ≤ tbl.numBuckets * 2) || !room) = false := by
      simp only [fits,decide_false,Bool.false_or]
      simpa using some_
    obtain ⟨ideal,ineff,noexpand,moved⟩ : ∃ ideal ineff noexpand, hashExpandBuckets m room =
        some (false,{ m with
          heap := s.heap
          table := some { tbl with
            buckets := s.buckets
            numBuckets := tbl.numBuckets*2
            log2NumBuckets := tbl.log2NumBuckets+1
            idealChainMaxlen := ideal
            nonidealItems := s.nonidealItems
            ineffExpands := ineff
            noexpand } }) :=
      ⟨_,_,_,by simp only [hashExpandBuckets,there,Option.bind_eq_bind,Option.bind_some,go,run]; rfl⟩
    exact ⟨false,_,_,moved,rfl,frame,rfl,⟨positive,⟨chains',bucketsHold_congr holds' all⟩,holds.items,holds.tail⟩,nofun⟩

/-- An element that has just come to the end of the list gets into the table, which
    grows if need be. -/
theorem hashAddToTable_holds {m : Map P V} {tbl : Table P} (hashval : UInt32) (add : P) (room : Bool)
    (there : m.table = some tbl) (positive : 0 < tbl.numBuckets)
    (holds : BucketsHold m.heap tbl.buckets tbl.numBuckets order chains) (items : tbl.numItems = order.length)
    (tail : tbl.tail = some add) (fresh : add ∉ order)
    (hashed : (m.heap add).map Element.hashv = some hashval) (live : ∀ p ∈ order, (m.heap p).isSome) :
    ∃ failed m' tbl', hashAddToTable m hashval add room = some (failed,m') ∧ m'.head = m.head ∧
      hh.Frame m.heap m'.heap ∧ m'.table = some tbl' ∧ TableHolds m'.heap (order ++ [add]) tbl' ∧
        (failed = true → room = false ∨ 2^31 ≤ tbl.numBuckets) := by
  obtain ⟨n,here,rfl⟩ := Option.map_eq_some_iff.mp hashed
  obtain ⟨bkt,found⟩ : ∃ bkt, tbl.buckets[hashToBkt n.hashv tbl.numBuckets]? = some bkt :=
    ⟨_,List.getElem?_eq_getElem (by rw [holds.size]; exact hashToBkt_lt positive)⟩
  obtain ⟨heap',run,frame,_,pushed⟩ := push_holds holds fresh (by simp [slot,here]) found
  obtain ⟨chains',holds'⟩ := pushed bkt.expandMult
  have grown : TableHolds heap' (order ++ [add]) { tbl with
      numItems := tbl.numItems+1
      buckets := tbl.buckets.set (hashToBkt n.hashv tbl.numBuckets) ⟨some add,bkt.count+1,bkt.expandMult⟩ } :=
    ⟨positive,⟨chains',bucketsHold_congr holds' (by simp [or_comm])⟩,by simp [items],by rw [tail]; simp⟩
  by_cases expands : ((bkt.expandMult+1) * 10 ≤ bkt.count+1 && !tbl.noexpand) = true
  · have live' : ∀ p ∈ order ++ [add], (heap' p).isSome := by
      intro p member
      rw [frame.live p]
      rcases List.mem_append.mp member with member | member
      · exact live p member
      · rw [List.mem_singleton.mp member,here]
        rfl
    obtain ⟨failed,m',tbl',done,head,frame',there',holds'',why⟩ :=
      expand_holds (m := { m with heap := heap', table := _ }) room rfl grown live'
    refine ⟨failed,m',tbl',?_,head,frame.trans frame',there',holds'',why⟩
    simp only [hashAddToTable,there,found,run,expands,Option.bind_eq_bind,Option.bind_some,↓reduceIte]
    exact done
  · refine ⟨false,{ m with heap := heap', table := _ },_,?_,rfl,frame,rfl,grown,nofun⟩
    simp only [hashAddToTable,there,found,run,expands,Option.bind_eq_bind,Option.bind_some]
    rfl

/-! ## Looking for a key -/

omit [DecidableEq P] in
theorem hashFindLoop_finds (hashv : UInt32) (key : List UInt8) {chain : List P} {b : Option P} {k : Nat}
    (seg : hh.Seg heap b chain none) (enough : chain.length ≤ k) :
    ∃ found, hashFindLoop heap hashv key k (first chain none) = some found ∧
      (found = none → ∀ x ∈ chain, ∀ n, heap x = some n → ¬ (n.hashv = hashv ∧ n.key = key)) ∧
      ∀ p, found = some p → p ∈ chain ∧ ∃ n, heap p = some n ∧ n.key = key := by
  induction chain generalizing b k with
  | nil => exact ⟨none,by simp [hashFindLoop],by simp,by simp⟩
  | cons x xs ih =>
    cases k with
    | zero => simp at enough
    | succ k =>
      obtain ⟨_,on,later⟩ := seg
      obtain ⟨n,here⟩ : ∃ n, heap x = some n := by
        cases here : heap x with
        | none => simp [here] at on
        | some n => exact ⟨n,rfl⟩
      have next : n.hhNext = first xs none := by simpa [here,hh] using on
      by_cases hit : n.hashv = hashv ∧ n.key = key
      · refine ⟨some x,?_,nofun,?_⟩
        · simp only [hashFindLoop,first_cons,here,Option.bind_eq_bind,Option.bind_some,hit,and_self,↓reduceIte]
        · rintro p ⟨⟩
          exact ⟨List.mem_cons_self,n,here,hit.2⟩
      · obtain ⟨found,run,misses,hits⟩ := ih (k := k) later (by simpa using enough)
        refine ⟨found,?_,?_,?_⟩
        · simp only [hashFindLoop,first_cons,here,Option.bind_eq_bind,Option.bind_some,hit,↓reduceIte,next]
          exact run
        · intro none y member n' there
          rcases List.mem_cons.mp member with rfl | member
          · rw [here] at there
            cases there
            exact hit
          · exact misses none y member n' there
        · intro p is
          obtain ⟨member,there⟩ := hits p is
          exact ⟨List.mem_cons_of_mem _ member,there⟩

omit [DecidableEq P] in
theorem mem_without {xs ys : List P} {del : P} (once : (xs ++ del :: ys).Nodup) (x : P) :
    x ∈ xs ++ ys ↔ x ∈ xs ++ del :: ys ∧ x ≠ del := by
  obtain ⟨_,onceY,apart⟩ := List.nodup_append.mp once
  have notX : del ∉ xs := fun member => apart del member del List.mem_cons_self rfl
  have notY : del ∉ ys := (List.nodup_cons.mp onceY).1
  simp only [List.mem_append,List.mem_cons]
  constructor
  · rintro (member | member)
    · exact ⟨.inl member,fun same => notX (same ▸ member)⟩
    · exact ⟨.inr (.inr member),fun same => notY (same ▸ member)⟩
  · rintro ⟨member | same | member,other⟩
    · exact .inl member
    · exact absurd same other
    · exact .inr member

omit [DecidableEq P] in
theorem nodup_without {xs ys : List P} {del : P} (once : (xs ++ del :: ys).Nodup) : (xs ++ ys).Nodup :=
  once.sublist (List.sublist_cons_self del ys |>.append_left xs)

/-- An element is taken out of the chain of its bucket. -/
theorem hashDelInBkt_holds {m : Map P V} {tbl : Table P} {xs ys : List P} {del : P} (there : m.table = some tbl)
    (positive : 0 < tbl.numBuckets) (holds : BucketsHold m.heap tbl.buckets tbl.numBuckets (xs ++ del :: ys) chains)
    (once : (xs ++ del :: ys).Nodup) (live : (m.heap del).isSome) :
    ∃ m' buckets' chains', hashDelInBkt m del = some m' ∧ m'.head = m.head ∧ hh.Frame m.heap m'.heap ∧
      m'.table = some { tbl with buckets := buckets' } ∧
        BucketsHold m'.heap buckets' tbl.numBuckets (xs ++ ys) chains' := by
  obtain ⟨i,bkt,within,hashed,found,inside⟩ := in_chain holds positive (p := del) (by simp) live
  obtain ⟨n,here⟩ := Option.isSome_iff_exists.mp live
  have index : hashToBkt n.hashv tbl.numBuckets = i := by simpa [slot,here] using hashed
  have bucket := holds.bucket i bkt found
  obtain ⟨us,vs,split⟩ := List.append_of_mem inside
  have seg : hh.Seg m.heap none (us ++ del :: vs) none := split ▸ bucket.seg
  have onceB : (us ++ del :: vs).Nodup := split ▸ bucket.once
  obtain ⟨heap',run,became⟩ := unlink_became seg onceB
  have slots : ∀ x, slot heap' tbl.numBuckets x = slot m.heap tbl.numBuckets x := became.frame _ _ (hh_slot _)
  obtain ⟨onceU,onceV,apartUV⟩ := List.nodup_append.mp onceB
  have next : n.hhNext = first vs none := by simpa [here,hh] using seg_next seg
  have count : bkt.count = us.length + vs.length + 1 := by
    rw [bucket.count,split]
    simp
    omega
  have first_ : (if bkt.hhHead = some del then n.hhNext else bkt.hhHead) = first (us ++ vs) none := by
    rw [bucket.head,split,next]
    cases us with
    | nil => simp
    | cons u us =>
      have other : u ≠ del := fun same => (List.nodup_append.mp onceB).2.2 u List.mem_cons_self del
        List.mem_cons_self same
      simp [other]
  have inside' : ∀ x, x ∈ us ++ vs ↔ x ∈ chains i ∧ x ≠ del := fun x => split ▸ mem_without onceB x
  have moved : hashDelInBkt m del = some { m with
      heap := heap'
      table := some { tbl with
        buckets := tbl.buckets.set i ⟨first (us ++ vs) none,bkt.count-1,bkt.expandMult⟩ } } := by
    simp only [hashDelInBkt,there,here,index,found,run,first_,Option.bind_eq_bind,Option.bind_some]
  refine ⟨_,_,Function.update chains i (us ++ vs),moved,rfl,became.frame,rfl,?_,?_,
    ?_⟩
  · rw [List.length_set,holds.size]
  · intro j b there'
    by_cases same : i = j
    · subst same
      rw [List.getElem?_set_self (holds.size ▸ within)] at there'
      cases there'
      rw [Function.update_self]
      exact ⟨nodup_without onceB,became.seg,rfl,by simp [count]⟩
    · rw [List.getElem?_set_ne same] at there'
      rw [Function.update_of_ne (Ne.symm same)]
      have other := holds.bucket j b there'
      have within' : j < tbl.numBuckets := holds.size ▸ (List.getElem?_eq_some_iff.mp there').1
      refine ⟨other.once,seg_congr ?_ other.seg,other.head,other.count⟩
      intro x member
      have kept := became.elsewhere x fun also => same
        (chains_apart holds within within' ((inside' x).mp also).1 member)
      exact ⟨congrArg (Option.map hh.prev) kept,congrArg (Option.map hh.next) kept⟩
  · intro j within' x
    change _ ↔ _ ∧ slot heap' tbl.numBuckets x = some j
    rw [slots x,mem_without once x]
    by_cases same : j = i
    · subst same
      rw [Function.update_self,inside' x,holds.members j within' x]
      exact and_right_comm
    · rw [Function.update_of_ne same,holds.members j within' x]
      constructor
      · rintro ⟨member,hashed'⟩
        refine ⟨⟨member,?_⟩,hashed'⟩
        intro is
        rw [is,hashed] at hashed'
        exact same (Option.some.inj hashed').symm
      · rintro ⟨⟨member,_⟩,hashed'⟩
        exact ⟨member,hashed'⟩

end
end Robsd.HashTable
