import Robsd.HashTable
import Robsd.Loops

/-!
A map is the list of its entries in the order of their insertion (map.c): every
function does to the table what it says about that list (`ran_refines`), and
`map_free` frees what there is, each element once (`mapFree_frees`).
-/
namespace Robsd.MapEntries
open Robsd.Links Robsd.HashMap Robsd.HashTable
open Robsd.Loops (Round Leaves)
variable {P V : Type}

/-- An element with its key and its value. -/
structure Entry (P V : Type) where
  place : P
  key : List UInt8
  val : V

/-- The elements of some entries. -/
def places (es : List (Entry P V)) : List P := es.map Entry.place

/-- A map has some entries and no other memory. -/
structure Holds (m : Map P V) (es : List (Entry P V)) : Prop where
  once : (places es).Nodup
  seg : app.Seg m.heap none (places es) none
  head : m.head = first (places es) none
  entry : ∀ e ∈ es, (m.heap e.place).map data = some (e.key,hashJen e.key,e.val)
  only : ∀ p, (m.heap p).isSome → p ∈ places es
  table : es ≠ [] → ∃ tbl, m.table = some tbl ∧ TableHolds m.heap (places es) tbl
  freed : es = [] → m.table = none

@[simp] theorem places_append (es fs : List (Entry P V)) : places (es ++ fs) = places es ++ places fs := List.map_append

@[simp] theorem places_cons (e : Entry P V) (es : List (Entry P V)) : places (e :: es) = e.place :: places es := rfl

@[simp] theorem places_nil : places ([] : List (Entry P V)) = [] := rfl

theorem place_mem {es : List (Entry P V)} {e : Entry P V} (member : e ∈ es) :
    e.place ∈ places es := List.mem_map_of_mem member

theorem mapInit_holds : Holds (mapInit : Map P V) [] :=
  ⟨List.nodup_nil,trivial,rfl,nofun,nofun,fun none => absurd rfl none,fun _ => rfl⟩

section
variable {m : Map P V} {es fs : List (Entry P V)}

theorem entry_live (holds : Holds m es) {e : Entry P V} (member : e ∈ es) :
    ∃ n, m.heap e.place = some n ∧ n.key = e.key ∧ n.hashv = hashJen e.key ∧ n.val = e.val := by
  obtain ⟨n,here,same⟩ := Option.map_eq_some_iff.mp (holds.entry e member)
  obtain ⟨key,hashv,val⟩ : n.key = e.key ∧ n.hashv = hashJen e.key ∧ n.val = e.val := by simpa [data] using same
  exact ⟨n,here,key,hashv,val⟩

theorem places_live (holds : Holds m es) : ∀ p ∈ places es, (m.heap p).isSome := by
  intro p member
  obtain ⟨e,inside,rfl⟩ := List.mem_map.mp member
  obtain ⟨n,here,_⟩ := entry_live holds inside
  rw [here]
  rfl

/-- What follows an entry. -/
theorem entry_next (es : List (Entry P V)) {e : Entry P V} (holds : Holds m (es ++ e :: fs)) :
    ∃ n, m.heap e.place = some n ∧ n.next = first (places fs) none := by
  obtain ⟨n,here,_⟩ := entry_live holds (e := e) (by simp)
  have seg : app.Seg m.heap none (places es ++ e.place :: places fs) none := by
    rw [← places_cons,← places_append]
    exact holds.seg
  exact ⟨n,here,by simpa [here,app] using seg_next seg⟩

variable [DecidableEq P]

/-! ## Looking for a key -/

omit [DecidableEq P] in
theorem mapFind_holds (holds : Holds m es) (key : List UInt8) :
    ∃ found, mapFind m key = some found ∧ (found = none → ∀ e ∈ es, e.key ≠ key) ∧
      ∀ p, found = some p → ∃ e ∈ es, e.place = p ∧ e.key = key := by
  cases es with
  | nil =>
    refine ⟨none,?_,by simp,nofun⟩
    simp only [mapFind,hashFind,holds.head,places_nil,first_nil]
  | cons e₀ es₀ =>
    obtain ⟨tbl,there,table⟩ := holds.table (by simp)
    obtain ⟨chains,buckets⟩ := table.buckets
    have within : hashToBkt (hashJen key) tbl.numBuckets < tbl.numBuckets := hashToBkt_lt table.positive
    obtain ⟨bkt,found⟩ : ∃ bkt, tbl.buckets[hashToBkt (hashJen key) tbl.numBuckets]? = some bkt :=
      ⟨_,List.getElem?_eq_getElem (by rw [buckets.size]; exact within)⟩
    have bucket := buckets.bucket _ bkt found
    obtain ⟨r,run,misses,hits⟩ := hashFindLoop_finds (hashJen key) key bucket.seg
      (Nat.le_of_eq bucket.count.symm)
    refine ⟨r,?_,?_,?_⟩
    · simp only [mapFind,hashFind,holds.head,places_cons,first_cons,there,found,Option.bind_eq_bind,
        Option.bind_some,bucket.head]
      exact run
    · intro none e member same
      obtain ⟨n,here,key',hashv,_⟩ := entry_live holds member
      have inside : e.place ∈ chains (hashToBkt (hashJen key) tbl.numBuckets) := by
        refine (buckets.members _ within e.place).mpr ⟨List.mem_map_of_mem member,?_⟩
        simp [slot,here,hashv,same]
      exact misses none e.place inside n here ⟨hashv.trans (congrArg hashJen same),key'.trans same⟩
    · intro p is
      obtain ⟨inside,n,here,same⟩ := hits p is
      obtain ⟨e,member,rfl⟩ := List.mem_map.mp ((buckets.members _ within p).mp inside).1
      obtain ⟨n',here',key',_⟩ := entry_live holds member
      rw [here] at here'
      cases here'
      exact ⟨e,member,rfl,key'.symm.trans same⟩

/-! ## Inserting -/

/-- The memory with a new element that is not linked yet. -/
def allocated (m : Map P V) (el : P) (key : List UInt8) (val : V) : Store P (Element P V) :=
  Function.update m.heap el (some ⟨none,none,none,none,key,hashJen key,val⟩)

/-- The new element is linked and in the table. -/
theorem linked_holds (holds : Holds m es) {key : List UInt8} {val : V} {el : P} (fresh : el ∉ places es) {m' : Map P V}
    {heap : Store P (Element P V)} {tbl : Table P} (app_ : app.Frame (allocated m el key val) heap)
    (hh_ : hh.Frame heap m'.heap) (seg : app.Seg heap none (places es ++ [el]) none)
    (head : m'.head = first (places es ++ [el]) none) (there : m'.table = some tbl)
    (table : TableHolds m'.heap (places es ++ [el]) tbl) : Holds m' (es ++ [⟨el,key,val⟩]) := by
  have kept : ∀ p, (m'.heap p).map data = (allocated m el key val p).map data := fun p =>
    (hh_ _ _ hh_data p).trans (app_ _ _ app_data p)
  have live : ∀ p, (m'.heap p).isSome = (allocated m el key val p).isSome := fun p => (hh_.live p).trans (app_.live p)
  refine ⟨?_,?_,?_,?_,?_,fun _ => ⟨tbl,there,?_⟩,fun none => by simp at none⟩
  · simpa using List.nodup_append.mpr ⟨holds.once,by simp,fun x member y last same => by
      rw [List.mem_singleton.mp last] at same
      exact fresh (same ▸ member)⟩
  · simpa using seg_frame hh_ hh_app_prev hh_app_next seg
  · simpa using head
  · intro e member
    rw [kept]
    rcases List.mem_append.mp member with member | member
    · have other : e.place ≠ el := fun same => fresh (same ▸ List.mem_map_of_mem member)
      rw [allocated,Function.update_of_ne other]
      exact holds.entry e member
    · rw [List.mem_singleton.mp member,allocated,Function.update_self]
      rfl
  · intro p here
    rw [live,allocated] at here
    by_cases same : p = el
    · simp [same]
    · rw [Function.update_of_ne same] at here
      simp [holds.only p here]
  · simpa using table

/-- An element that was allocated comes behind all others, unless there is no memory
    for the table. -/
theorem mapInsert_holds (holds : Holds m es) (key : List UInt8) (val : V) (room : Room P)
    (unused : ∀ el, room.element = some el → m.heap el = none) :
    ∃ out m', mapInsert m key val room = some (out,m') ∧
      (out = none ∨ ∃ el, room.element = some el ∧ out = some el ∧ Holds m' (es ++ [⟨el,key,val⟩])) := by
  cases room_ : room.element with
  | none => exact ⟨none,m,by simp only [mapInsert,room_],.inl rfl⟩
  | some el =>
    have fresh : el ∉ places es := by
      intro member
      have live := places_live holds el member
      rw [unused el room_] at live
      cases live
    have written : write (Function.update m.heap el (some ⟨none,none,none,none,key,0,val⟩)) el
        (fun n => { n with hashv := hashJen key, key }) = some (allocated m el key val) := by
      rw [write_live (Function.update_self ..),Function.update_idem]
      rfl
    have elsewhere : ∀ p ∈ places es, allocated m el key val p = m.heap p := by
      intro p member
      have other : p ≠ el := fun same => fresh (same ▸ member)
      exact Function.update_of_ne other _ _
    have here : allocated m el key val el = some ⟨none,none,none,none,key,hashJen key,val⟩ := Function.update_self ..
    cases es with
    | nil =>
      have head : m.head = none := holds.head
      cases memory : room.table with
      | false =>
        refine ⟨none,{ m with heap := allocated m el key val },?_,.inl rfl⟩
        simp [mapInsert,room_,hashAdd,written,head,memory]
      | true =>
        obtain ⟨failed,m',tbl,done,head',frame,there,table,_⟩ := hashAddToTable_holds
          (m := ⟨allocated m el key val,some el,some (hashMakeTable el)⟩) (hashJen key) el room.buckets
            rfl (Nat.succ_pos 31)
          (zero_holds _ 32) rfl rfl (by simp) (by simp [here]) (by simp)
        have grown : Holds m' ([] ++ [⟨el,key,val⟩]) := by
          refine linked_holds holds fresh (.refl _ _) frame ⟨?_,?_,trivial⟩ head' there table
          · simp [here,app]
          · simp [here,app]
        refine ⟨if failed then none else some el,m',?_,?_⟩
        · cases failed <;> simp [mapInsert,room_,hashAdd,written,head,memory,done]
        · cases failed with
          | true => exact .inl rfl
          | false => exact .inr ⟨el,rfl,rfl,grown⟩
    | cons e₀ es₀ =>
      obtain ⟨tbl,there,table⟩ := holds.table (by simp)
      obtain ⟨chains,buckets⟩ := table.buckets
      obtain ⟨tail,ends⟩ : ∃ tail, last none (places (e₀ :: es₀)) = some tail := by
        rw [last_none]
        exact ⟨_,List.getLast?_eq_some_getLast (by simp)⟩
      have seg1 : app.Seg (allocated m el key val) none (places (e₀ :: es₀)) none := by
        refine seg_congr ?_ holds.seg
        intro x member
        rw [elsewhere x member]
        exact ⟨rfl,rfl⟩
      obtain ⟨heap2,run2,became⟩ := append_became seg1 holds.once ends fresh (by rw [here]; rfl)
      have kept : ∀ p ∈ places (e₀ :: es₀), ∀ {β : Type} (g : Element P V → β), app.Blind g →
        (heap2 p).map g = (m.heap p).map g :=
        fun p member β g blind => (became.frame β g blind p).trans (congrArg _ (elsewhere p member))
      have live2 : ∀ p ∈ places (e₀ :: es₀), (heap2 p).isSome := by
        intro p member
        rw [became.frame.live p,elsewhere p member]
        exact places_live holds p member
      have buckets2 : BucketsHold heap2 tbl.buckets tbl.numBuckets (places (e₀ :: es₀)) chains :=
        bucketsHold_frame buckets (fun p member => ⟨kept p member _ app_hh_prev,kept p member _ app_hh_next⟩)
          fun p member => kept p member _ (app_slot _)
      have hashed : (heap2 el).map Element.hashv = some (hashJen key) := by
        rw [became.frame _ _ ⟨fun _ _ => rfl,fun _ _ => rfl⟩ el,here]
        rfl
      obtain ⟨failed,m',tbl',done,head',frame,there',table',_⟩ := hashAddToTable_holds
        (m := ⟨heap2,m.head,some { tbl with tail := some el }⟩) (hashJen key) el room.buckets rfl table.positive
          buckets2 table.items
        rfl fresh hashed live2
      have head : m.head = some e₀.place := holds.head
      have grown : Holds m' ((e₀ :: es₀) ++ [⟨el,key,val⟩]) :=
        linked_holds holds fresh became.frame frame became.seg (head'.trans head) there' table'
      have tail_ : tbl.tail = some tail := table.tail.trans ends
      rw [head] at done
      refine ⟨if failed then none else some el,m',?_,?_⟩
      · cases failed <;> simp [mapInsert,room_,hashAdd,written,head,hashAppendList,there,tail_,run2,done]
      · cases failed with
        | true => exact .inl rfl
        | false => exact .inr ⟨el,rfl,rfl,grown⟩

/-! ## Removing -/

theorem hashDelete_holds (es : List (Entry P V)) {e : Entry P V} (holds : Holds m (es ++ e :: fs)) :
    ∃ m', hashDelete m e.place = some m' ∧ Holds m' (es ++ fs) := by
  obtain ⟨tbl,there,table⟩ := holds.table (by simp)
  obtain ⟨chains,buckets⟩ := table.buckets
  obtain ⟨n,here,_⟩ := entry_live holds (e := e) (by simp)
  have once : (places es ++ e.place :: places fs).Nodup := by simpa using holds.once
  have seg : app.Seg m.heap none (places es ++ e.place :: places fs) none := by simpa using holds.seg
  have prev : n.prev = last none (places es) := by simpa [here,app] using seg_prev seg
  have next : n.next = first (places fs) none := by simpa [here,app] using seg_next seg
  have out : ∀ f ∈ es ++ fs, f.place ≠ e.place := by
    intro f member
    exact ((mem_without once f.place).mp (by simpa using place_mem member)).2
  by_cases last_ : es = [] ∧ fs = []
  · obtain ⟨rfl,rfl⟩ := last_
    refine ⟨⟨Function.update m.heap e.place none,none,none⟩,?_,List.nodup_nil,trivial,rfl,by simp,?_,
      fun none => absurd rfl none,fun _ => rfl⟩
    · simp [hashDelete,there,here,prev,next,release]
    · intro p live
      have other : p ≠ e.place := by
        rintro rfl
        simp at live
      have live' : (m.heap p).isSome := by
        rw [← Function.update_of_ne other none m.heap]
        exact live
      exact absurd (by simpa using holds.only p live') other
  · have more : ¬ (n.prev = none ∧ n.next = none) := by
      rw [prev,next,last_eq_none,first_eq_none]
      simpa [places] using last_
    obtain ⟨heap1,run1,became⟩ := unlink_became seg once
    have buckets1 : BucketsHold heap1 tbl.buckets tbl.numBuckets (places es ++ e.place :: places fs) chains := by
      refine bucketsHold_frame (by simpa using buckets) (fun p _ => ⟨?_,?_⟩) ?_
      · exact became.frame _ _ app_hh_prev p
      · exact became.frame _ _ app_hh_next p
      · intro p _
        exact became.frame _ _ (app_slot _) p
    obtain ⟨m2,buckets2,chains2,run2,head2,frame2,there2,holds2⟩ := hashDelInBkt_holds
      (m := ⟨heap1,if n.prev = none then n.next else m.head,
        some { tbl with tail := if some e.place = tbl.tail then n.prev else tbl.tail }⟩)
      rfl table.positive buckets1 once (by rw [became.frame.live,here]; rfl)
    have kept : ∀ {β : Type} (g : Element P V → β), app.Blind g → hh.Blind g → ∀ p,
      (m2.heap p).map g = (m.heap p).map g :=
      fun g appBlind hhBlind p => (frame2 _ g hhBlind p).trans (became.frame _ g appBlind p)
    have live2 : ∀ p, (m2.heap p).isSome = (m.heap p).isSome := fun p => (frame2.live p).trans (became.frame.live p)
    obtain ⟨heap3,run3⟩ : ∃ heap3, release m2.heap e.place = some heap3 := by
      obtain ⟨n2,here2⟩ := Option.isSome_iff_exists.mp (by rw [live2,here]; rfl : (m2.heap e.place).isSome)
      exact ⟨_,by rw [release,here2]; rfl⟩
    have elsewhere : ∀ p, p ≠ e.place → heap3 p = m2.heap p := by
      obtain ⟨n2,_,rfl⟩ := Option.map_eq_some_iff.mp run3
      intro p other
      exact Function.update_of_ne other _ _
    have gone : heap3 e.place = none := by
      obtain ⟨n2,_,rfl⟩ := Option.map_eq_some_iff.mp run3
      exact Function.update_self ..
    have notIn : e.place ∉ places es ++ places fs := fun member => ((mem_without once e.place).mp member).2 rfl
    have other : ∀ p ∈ places es ++ places fs, p ≠ e.place := fun p member same => notIn (same ▸ member)
    have done : hashDelete m e.place = some ⟨heap3,m2.head,some { tbl with
        tail := if some e.place = tbl.tail then n.prev else tbl.tail
        buckets := buckets2
        numItems := tbl.numItems-1 }⟩ := by
      simp only [hashDelete,there,here,more,run1,run2,there2,run3,Option.bind_eq_bind,Option.bind_some,↓reduceIte]
    have tail : (if some e.place = tbl.tail then n.prev else tbl.tail) = last none (places es ++ places fs) := by
      rw [table.tail,prev]
      simp only [places_append,places_cons,last_append,last_cons]
      cases fs with
      | nil => simp
      | cons f fs =>
        have away : some e.place ≠ last (some e.place) (places (f :: fs)) := by
          rw [last_base (by simp) (some e.place) none]
          intro same
          have := last_mem same.symm
          exact notIn (by simp only [List.mem_append]; exact .inr this)
        rw [if_neg away]
        exact last_base (by simp) _ _
    have head : m2.head = first (places es ++ places fs) none := by
      rw [head2]
      change (if n.prev = none then n.next else m.head) = _
      rw [prev,next,holds.head]
      cases es with
      | nil => simp
      | cons f es =>
        rw [if_neg (fun none => by simpa using last_eq_none.mp none)]
        simp
    have entries : ∀ f ∈ es ++ fs, (heap3 f.place).map data = some (f.key,hashJen f.key,f.val) := by
      intro f member
      rw [elsewhere f.place (out f member),kept data app_data hh_data]
      apply holds.entry f
      rcases List.mem_append.mp member with member | member
      · exact List.mem_append_left _ member
      · exact List.mem_append_right _ (List.mem_cons_of_mem _ member)
    have only : ∀ p, (heap3 p).isSome → p ∈ places es ++ places fs := by
      intro p live
      have different : p ≠ e.place := by
        rintro rfl
        rw [gone] at live
        cases live
      rw [elsewhere p different,live2] at live
      exact (mem_without once p).mpr ⟨by simpa using holds.only p live,different⟩
    have buckets3 : BucketsHold heap3 buckets2 tbl.numBuckets (places es ++ places fs) chains2 := by
      refine bucketsHold_frame holds2 ?_ ?_
      · intro p member
        rw [elsewhere p (other p member)]
        exact ⟨rfl,rfl⟩
      · intro p member
        rw [slot,slot,elsewhere p (other p member)]
    have seg3 : app.Seg heap3 none (places es ++ places fs) none :=
      seg_release run3 notIn (seg_frame frame2 hh_app_prev hh_app_next became.seg)
    have items : tbl.numItems-1 = (places es ++ places fs).length := by simp [table.items]
    rw [← places_append] at head only buckets3 seg3 items tail
    exact ⟨_,done,by simpa using nodup_without once,seg3,head,entries,only,
      fun _ => ⟨_,rfl,table.positive,⟨chains2,buckets3⟩,items,tail⟩,fun none =>
        absurd (List.append_eq_nil_iff.mp none) last_⟩

/-- An entry with the key is removed, if there is one. -/
theorem mapRemove_holds (holds : Holds m es) (key : List UInt8) :
    ∃ m', mapRemove m key = some m' ∧
      ((∀ e ∈ es, e.key ≠ key) ∧ m' = m ∨ ∃ before e behind, es = before ++ e :: behind ∧ e.key = key ∧
        Holds m' (before ++ behind)) := by
  obtain ⟨found,run,misses,hits⟩ := mapFind_holds holds key
  have run' : hashFind m key = some found := run
  cases found with
  | none => exact ⟨m,by simp only [mapRemove,run',Option.bind_eq_bind,Option.bind_some],.inl ⟨misses rfl,rfl⟩⟩
  | some p =>
    obtain ⟨e,member,rfl,same⟩ := hits p rfl
    obtain ⟨before,behind,rfl⟩ := List.append_of_mem member
    obtain ⟨m',done,holds'⟩ := hashDelete_holds before holds
    exact ⟨m',by simp only [mapRemove,run',Option.bind_eq_bind,Option.bind_some,done],
      .inr ⟨before,e,behind,rfl,same,holds'⟩⟩

/-! ## Iterating -/

/-- A loop with `MAP_ITERATE` in its condition: the elements that it visits. -/
def mapCollect (m : Map P V) : Nat → Iterator P → Option (List P)
  | 0, _ => none
  | k+1, it => do
    match ← mapIterate m it with
    | (none,_) => some []
    | (some el,it) =>
      let rest ← mapCollect m k it
      some (el :: rest)

omit [DecidableEq P] in
/-- The entries behind those that have been visited are visited in their order. -/
theorem collects_behind (before behind : List (Entry P V)) (it : Iterator P) {k : Nat}
    (holds : Holds m (before ++ behind)) (el : it.el ≠ none) (nx : it.nx = first (places behind) none)
    (enough : behind.length < k) :
    mapCollect m k it = some (places behind) := by
  induction behind generalizing before it k with
  | nil =>
    obtain ⟨k,rfl⟩ := Nat.exists_eq_succ_of_ne_zero (Nat.ne_zero_of_lt enough)
    have nx : it.nx = none := nx
    simp [mapCollect,mapIterate,el,nx]
  | cons e behind ih =>
    obtain ⟨k,rfl⟩ := Nat.exists_eq_succ_of_ne_zero (Nat.ne_zero_of_lt enough)
    obtain ⟨n,here,next⟩ := entry_next before holds
    have nx : it.nx = some e.place := nx
    have rest := ih (before ++ [e]) { it with nx := n.next } (k := k) (by simpa using holds) el
      next (by simpa using enough)
    simp [mapCollect,mapIterate,el,nx,here,rest]

omit [DecidableEq P] in
/-- A loop over a map visits every entry once, in the order of their insertion. -/
theorem mapCollect_all (holds : Holds m es) {k : Nat} (enough : es.length < k) :
    mapCollect m k ⟨none,none⟩ = some (places es) := by
  obtain ⟨k,rfl⟩ := Nat.exists_eq_succ_of_ne_zero (Nat.ne_zero_of_lt enough)
  cases es with
  | nil =>
    have head : m.head = none := holds.head
    simp [mapCollect,mapIterate,head]
  | cons e es =>
    obtain ⟨n,here,next⟩ := entry_next [] holds
    have head : m.head = some e.place := holds.head
    have rest := collects_behind [e] es ⟨some e.place,n.next⟩ (k := k) (by simpa using holds)
      (Option.some_ne_none e.place) next (by simpa using enough)
    simp [mapCollect,mapIterate,head,here,rest]

/-! ## Freeing -/

/-- The loop of `map_free`. -/
def freeRound (s : Map P V × Option P) : Round (Map P V × Option P) (Option (Map P V)) :=
  match s.2 with
  | none => .leave (some s.1)
  | some el =>
    match s.1.heap el with
    | none => .leave none
    | some n =>
      match hashDelete s.1 el with
      | none => .leave none
      | some m => .again (m,n.next)

/-- `map_free` frees every element once, and the table; nothing is left. -/
theorem mapFree_frees (holds : Holds m es) : Leaves freeRound (m,m.head) (es.length+1) (some mapInit) := by
  induction es generalizing m with
  | nil =>
    refine .last ?_
    have head : m.head = none := holds.head
    have empty : m.heap = fun _ => none := by
      funext p
      cases here : m.heap p with
      | none => rfl
      | some n => exact absurd (holds.only p (by rw [here]; rfl)) List.not_mem_nil
    have same : m = mapInit := by
      cases m
      simp only [mapInit,HashMap.Map.mk.injEq]
      exact ⟨empty,head,holds.freed rfl⟩
    subst same
    rfl
  | cons e es ih =>
    obtain ⟨n,here,next⟩ := entry_next [] holds
    have head : m.head = some e.place := holds.head
    obtain ⟨m',done,holds'⟩ := hashDelete_holds [] holds
    refine .next ?_ (ih holds')
    have head' : m'.head = first (places es) none := holds'.head
    simp only [freeRound,head,here,done,next,head']

/-! ## Runs -/

/-- A call of a function of a map. -/
inductive Call (P V : Type) where
  | insert (key : List UInt8) (val : V) (room : Room P)
  | find (key : List UInt8)
  | remove (key : List UInt8)

/-- The pointer that a call returns and the map after it. -/
def call (m : Map P V) : Call P V → Option (Option P × Map P V)
  | .insert key val room => mapInsert m key val room
  | .find key => (mapFind m key).map fun found => (found,m)
  | .remove key => (mapRemove m key).map fun m => (none,m)

/-- `calloc` returns memory that is not in use. -/
def Call.Fresh (m : Map P V) : Call P V → Prop
  | .insert _ _ room => ∀ el, room.element = some el → m.heap el = none
  | _ => True

/-- The program goes on after a call; it exits where an insertion returns NULL. -/
def Call.goesOn : Call P V → Option P → Bool
  | .insert _ _ _, out => out.isSome
  | _, _ => true

/-- What a call does to the entries. -/
inductive Takes : List (Entry P V) → Call P V → Option P → List (Entry P V) → Prop
  | insert (es : List (Entry P V)) (key : List UInt8) (val : V) {room : Room P} {el : P}
    (there : room.element = some el) :
    Takes es (.insert key val room) (some el) (es ++ [⟨el,key,val⟩])
  | findNone {es : List (Entry P V)} {key : List UInt8} (misses : ∀ e ∈ es, e.key ≠ key) : Takes es (.find key) none es
  | find {es : List (Entry P V)} {e : Entry P V} (member : e ∈ es) : Takes es (.find e.key) (some e.place) es
  | removeNone {es : List (Entry P V)} {key : List UInt8} (misses : ∀ e ∈ es, e.key ≠ key) :
    Takes es (.remove key) none es
  | remove (before : List (Entry P V)) (e : Entry P V) (behind : List (Entry P V)) :
    Takes (before ++ e :: behind) (.remove e.key) none (before ++ behind)

/-- The entries after calls with their results, the last one first. -/
inductive History : List (Call P V × Option P) → List (Entry P V) → Prop
  | start : History [] []
  | call {h : List (Call P V × Option P)} {es es' : List (Entry P V)} {c : Call P V} {out : Option P}
    (before : History h es) (takes : Takes es c out es') : History ((c,out) :: h) es'

/-- The states of a map in the course of a program, with the calls made and their
    results, the last one first. -/
inductive Ran : List (Call P V × Option P) → Map P V → Prop
  | start : Ran [] mapInit
  | call {h : List (Call P V × Option P)} {m m' : Map P V} {c : Call P V} {out : Option P} (before : Ran h m)
    (fresh : c.Fresh m) (run : call m c = some (out,m')) (goes : c.goesOn out = true) : Ran ((c,out) :: h) m'

theorem call_takes (holds : Holds m es) (c : Call P V) (fresh : c.Fresh m) :
    ∃ out m', call m c = some (out,m') ∧ (c.goesOn out = true → ∃ es', Takes es c out es' ∧ Holds m' es') := by
  cases c with
  | insert key val room =>
    obtain ⟨out,m',run,none | ⟨el,there,is,holds'⟩⟩ := mapInsert_holds holds key val room fresh
    · exact ⟨out,m',run,fun goes => by simp [Call.goesOn,none] at goes⟩
    · exact ⟨out,m',run,fun _ => ⟨_,is ▸ .insert es key val there,holds'⟩⟩
  | find key =>
    obtain ⟨found,run,misses,hits⟩ := mapFind_holds holds key
    refine ⟨found,m,by simp [call,run],fun _ => ⟨es,?_,holds⟩⟩
    cases found with
    | none => exact .findNone (misses rfl)
    | some p =>
      obtain ⟨e,member,rfl,rfl⟩ := hits p rfl
      exact .find member
  | remove key =>
    obtain ⟨m',run,⟨missing,rfl⟩ | ⟨before,e,behind,rfl,rfl,holds'⟩⟩ := mapRemove_holds holds key
    · exact ⟨none,m',by simp [call,run],fun _ => ⟨es,.removeNone missing,holds⟩⟩
    · exact ⟨none,m',by simp [call,run],fun _ => ⟨_,.remove before e behind,holds'⟩⟩

/-- In every run the map is a list of entries. -/
theorem ran_entries {h : List (Call P V × Option P)} (ran : Ran h m) : ∃ es, History h es ∧ Holds m es := by
  induction ran with
  | start => exact ⟨[],.start,mapInit_holds⟩
  | call _ fresh run goes ih =>
    obtain ⟨es,history,holds⟩ := ih
    obtain ⟨out,m',run',next⟩ := call_takes holds _ fresh
    rw [run] at run'
    cases run'
    obtain ⟨es',takes,holds'⟩ := next goes
    exact ⟨es',.call history takes,holds'⟩

/-- In every run the map is the list of its entries, each call does what it says about
    them, and no call goes wrong. -/
theorem ran_refines {h : List (Call P V × Option P)} (ran : Ran h m) :
    (∃ es, History h es ∧ Holds m es) ∧ ∀ c : Call P V, c.Fresh m → (call m c).isSome := by
  refine ⟨ran_entries ran,?_⟩
  intro c fresh
  obtain ⟨es,_,holds⟩ := ran_entries ran
  obtain ⟨out,m',run,_⟩ := call_takes holds c fresh
  rw [run]
  rfl

/-- After every run a loop visits the entries in the order of their insertion, each
    once, and `map_free` frees every element once and the table. -/
theorem ran_visits {h : List (Call P V × Option P)} (ran : Ran h m) :
    ∃ es, History h es ∧ (places es).Nodup ∧ (∀ k, es.length < k → mapCollect m k ⟨none,none⟩ = some (places es)) ∧
      Leaves freeRound (m,m.head) (es.length+1) (some mapInit) := by
  obtain ⟨es,history,holds⟩ := ran_entries ran
  exact ⟨es,history,holds.once,fun _ enough => mapCollect_all holds enough,mapFree_frees holds⟩

/-! ## A run -/

/-- Two keys are inserted, the first one is removed, looked for and inserted anew
    where it was before, and then both are found. -/
def sampleCalls : List (Call Nat Nat × Option Nat) := [
  (.find [7],some 0),(.find [8],some 1),
  (.insert [7] 9 ⟨some 0,true,true⟩,some 0),(.find [7],none),(.remove [7],none),
  (.insert [8] 6 ⟨some 1,true,true⟩,some 1),(.insert [7] 5 ⟨some 0,true,true⟩,some 0)]

theorem sampleCalls_ran : ∃ m, Ran sampleCalls m ∧ ∀ k, mapCollect m (k+3) ⟨none,none⟩ = some [1,0] := by
  have inserted : Ran (sampleCalls.drop 5) _ :=
    .call (.call .start (fun _ _ => rfl) rfl rfl) (fun _ is => by cases is; rfl) rfl rfl
  have again : Ran (sampleCalls.drop 2) _ :=
    .call (.call (.call inserted trivial rfl rfl) trivial rfl rfl) (fun _ is => by cases is; rfl) rfl rfl
  exact ⟨_,.call (.call again trivial rfl rfl) trivial rfl rfl,fun _ => rfl⟩

/-- The key that is inserted anew comes last. -/
theorem ran_refines_inserted : ∃ m, Ran sampleCalls m ∧
    (∃ es, History sampleCalls es ∧ Holds m es ∧ places es = [1,0]) ∧
    ∀ c : Call Nat Nat, c.Fresh m → (call m c).isSome := by
  obtain ⟨m,ran,collected⟩ := sampleCalls_ran
  obtain ⟨⟨es,history,holds⟩,runs⟩ := ran_refines ran
  have all : mapCollect m (es.length+3) ⟨none,none⟩ = some (places es) := mapCollect_all holds (by omega)
  rw [collected] at all
  exact ⟨m,ran,⟨es,history,holds,(Option.some.inj all).symm⟩,runs⟩

theorem ran_visits_inserted : ∃ m, Ran sampleCalls m ∧
    ∃ es, History sampleCalls es ∧ places es = [1,0] ∧ mapCollect m 3 ⟨none,none⟩ = some [1,0] ∧
      Leaves freeRound (m,m.head) (es.length+1) (some mapInit) := by
  obtain ⟨m,ran,collected⟩ := sampleCalls_ran
  obtain ⟨es,history,_,visits,freed⟩ := ran_visits ran
  have all := visits (es.length+3) (by omega)
  rw [collected] at all
  exact ⟨m,ran,es,history,(Option.some.inj all).symm,collected 0,freed⟩

end
end Robsd.MapEntries
