import Mathlib.Algebra.Group.Nat.Defs
import Robsd.Links

/-!
The maps of libks (map.c): a hash table whose elements are in two lists each, the one
of their bucket and the one of all elements in the order of their insertion. A
function of the source that would follow a pointer to no element, or go through a
chain that does not end, is none here.
-/
namespace Robsd.HashMap
open Robsd.Links

/-- `struct map_element`, with the key and the value behind it. -/
structure Element (P V : Type) where
  prev : Option P
  next : Option P
  hhPrev : Option P
  hhNext : Option P
  key : List UInt8
  hashv : UInt32
  val : V

/-- The list of all elements. -/
def app {P V : Type} : Thread P (Element P V) where
  prev := Element.prev
  next := Element.next
  setPrev q n := { n with prev := q }
  setNext q n := { n with next := q }
  prev_setPrev _ _ := rfl
  next_setPrev _ _ := rfl
  prev_setNext _ _ := rfl
  next_setNext _ _ := rfl

/-- The list of a bucket. -/
def hh {P V : Type} : Thread P (Element P V) where
  prev := Element.hhPrev
  next := Element.hhNext
  setPrev q n := { n with hhPrev := q }
  setNext q n := { n with hhNext := q }
  prev_setPrev _ _ := rfl
  next_setPrev _ _ := rfl
  prev_setNext _ _ := rfl
  next_setNext _ _ := rfl

/-- `struct UT_hash_bucket`. -/
structure Bucket (P : Type) where
  hhHead : Option P
  count : Nat
  expandMult : Nat

/-- A bucket as `calloc` leaves it. -/
def Bucket.zero {P : Type} : Bucket P := ⟨none,0,0⟩

/-- `struct UT_hash_table`. -/
structure Table (P : Type) where
  buckets : List (Bucket P)
  numBuckets : Nat
  log2NumBuckets : Nat
  numItems : Nat
  tail : Option P
  idealChainMaxlen : Nat
  nonidealItems : Nat
  ineffExpands : Nat
  noexpand : Bool

/-- `struct map`, with the memory of its elements; there is no table where it has
    been freed. -/
structure Map (P V : Type) where
  heap : Store P (Element P V)
  head : Option P
  table : Option (Table P)

variable {P V : Type}

/-- `map_init`. -/
def mapInit : Map P V := ⟨fun _ => none,none,none⟩

/-- What `calloc` returns in the course of one call: the place of an element, and
    whether there is memory for a table and for the buckets of an expansion. -/
structure Room (P : Type) where
  element : Option P
  table : Bool
  buckets : Bool

/-! ## The hash function -/

/-- `HASH_JEN_MIX`. -/
def hashJenMix (a b c : UInt32) : UInt32 × UInt32 × UInt32 :=
  let a := (a - b - c) ^^^ (c >>> 13)
  let b := (b - c - a) ^^^ (a <<< 8)
  let c := (c - a - b) ^^^ (b >>> 13)
  let a := (a - b - c) ^^^ (c >>> 12)
  let b := (b - c - a) ^^^ (a <<< 16)
  let c := (c - a - b) ^^^ (b >>> 5)
  let a := (a - b - c) ^^^ (c >>> 3)
  let b := (b - c - a) ^^^ (a <<< 10)
  let c := (c - a - b) ^^^ (b >>> 15)
  (a,b,c)

/-- A byte of the key, shifted to its place; no byte adds nothing. -/
def byteAt (key : List UInt8) (i : Nat) (shift : UInt32) : UInt32 := ((key[i]?).getD 0).toUInt32 <<< shift

/-- `hash_key_read_u32` at an offset, the lowest byte first. -/
def hashKeyReadU32 (key : List UInt8) (i : Nat) : UInt32 :=
  byteAt key i 0 + byteAt key (i+1) 8 + byteAt key (i+2) 16 + byteAt key (i+3) 24

/-- The rounds of `HASH_JEN` on twelve bytes each. -/
def hashJenRounds : Nat → List UInt8 → UInt32 × UInt32 × UInt32 → List UInt8 × UInt32 × UInt32 × UInt32
  | 0, key, s => (key,s)
  | k+1, key, (i,j,hashv) =>
    hashJenRounds k (key.drop 12)
      (hashJenMix (i + hashKeyReadU32 key 0) (j + hashKeyReadU32 key 4) (hashv + hashKeyReadU32 key 8))

/-- `HASH_JEN`. -/
def hashJen (key : List UInt8) : UInt32 :=
  let (rest,i,j,hashv) := hashJenRounds (key.length / 12) key (0x9e3779b9,0x9e3779b9,0xfeedbeef)
  let hashv := hashv + UInt32.ofNat key.length + byteAt rest 10 24 + byteAt rest 9 16 + byteAt rest 8 8
  (hashJenMix (i + hashKeyReadU32 rest 0) (j + hashKeyReadU32 rest 4) hashv).2.2

/-- `HASH_TO_BKT`. -/
def hashToBkt (hashv : UInt32) (numBkts : Nat) : Nat := hashv.toNat &&& (numBkts-1)

/-! ## The table -/

section
variable [DecidableEq P]

/-- `HASH_MAKE_TABLE`. -/
def hashMakeTable (tail : P) : Table P where
  buckets := List.replicate 32 .zero
  numBuckets := 32
  log2NumBuckets := 5
  numItems := 0
  tail := some tail
  idealChainMaxlen := 0
  nonidealItems := 0
  ineffExpands := 0
  noexpand := false

/-- What `HASH_EXPAND_BUCKETS` has moved so far. -/
structure Spread (P V : Type) where
  heap : Store P (Element P V)
  buckets : List (Bucket P)
  nonidealItems : Nat

/-- An element is moved to its new bucket. -/
def spreadElement (ideal nbuckets : Nat) (s : Spread P V) (thh : P) : Option (Spread P V) := do
  let n ← s.heap thh
  let idx := hashToBkt n.hashv nbuckets
  let bkt ← s.buckets[idx]?
  let count := bkt.count+1
  let nonideal := decide (count > ideal)
  let mult := if nonideal && decide (count > bkt.expandMult * ideal) then bkt.expandMult+1 else bkt.expandMult
  let heap ← hh.push s.heap bkt.hhHead thh
  some ⟨heap,s.buckets.set idx ⟨some thh,count,mult⟩,if nonideal then s.nonidealItems+1 else s.nonidealItems⟩

/-- The elements of one bucket are moved, the first one first. -/
def spreadChain (ideal nbuckets : Nat) : Nat → Option P → Spread P V → Option (Spread P V)
  | _, none, s => some s
  | 0, some _, _ => none
  | k+1, some thh, s => do
    let n ← s.heap thh
    let s ← spreadElement ideal nbuckets s thh
    spreadChain ideal nbuckets k n.hhNext s

/-- `HASH_EXPAND_BUCKETS`, which fails where the number of buckets would not fit
    into 32 bits or there is no memory. -/
def hashExpandBuckets (m : Map P V) (room : Bool) : Option (Bool × Map P V) := do
  let tbl ← m.table
  let nbuckets := tbl.numBuckets * 2
  if 2^32 ≤ nbuckets || !room then
    return (true,m)
  let ideal := (tbl.numItems >>> (tbl.log2NumBuckets+1)) + if tbl.numItems &&& (nbuckets-1) ≠ 0 then 1 else 0
  let s ← tbl.buckets.foldlM (fun s bkt => spreadChain ideal nbuckets bkt.count bkt.hhHead s)
    ⟨m.heap,List.replicate nbuckets .zero,0⟩
  let ineff := if s.nonidealItems > tbl.numItems >>> 1 then tbl.ineffExpands+1 else 0
  return (false,{ m with
    heap := s.heap
    table := some { tbl with
      buckets := s.buckets
      numBuckets := nbuckets
      log2NumBuckets := tbl.log2NumBuckets+1
      idealChainMaxlen := ideal
      nonidealItems := s.nonidealItems
      ineffExpands := ineff
      noexpand := tbl.noexpand || decide (ineff > 1) } })

/-- `HASH_ADD_TO_TABLE`. -/
def hashAddToTable (m : Map P V) (hashval : UInt32) (add : P) (room : Bool) : Option (Bool × Map P V) := do
  let tbl ← m.table
  let idx := hashToBkt hashval tbl.numBuckets
  let bkt ← tbl.buckets[idx]?
  let heap ← hh.push m.heap bkt.hhHead add
  let tbl := { tbl with
    numItems := tbl.numItems+1
    buckets := tbl.buckets.set idx { bkt with count := bkt.count+1, hhHead := some add } }
  let m := { m with heap, table := some tbl }
  if (bkt.expandMult+1) * 10 ≤ bkt.count+1 && !tbl.noexpand then
    hashExpandBuckets m room
  else
    some (false,m)

/-- `HASH_APPEND_LIST`. -/
def hashAppendList (m : Map P V) (add : P) : Option (Map P V) := do
  let tbl ← m.table
  let tail ← tbl.tail
  let heap ← app.append m.heap tail add
  some { m with heap, table := some { tbl with tail := some add } }

/-- `HASH_ADD`. -/
def hashAdd (m : Map P V) (key : List UInt8) (add : P) (room : Room P) : Option (Bool × Map P V) := do
  let hashv := hashJen key
  let heap ← write m.heap add fun n => { n with hashv, key }
  let m := { m with heap }
  match m.head with
  | none =>
    if !room.table then
      return (true,m)
    hashAddToTable { m with head := some add, table := some (hashMakeTable add) } hashv add room.buckets
  | some _ =>
    let m ← hashAppendList m add
    hashAddToTable m hashv add room.buckets

/-- `HASH_DEL_IN_BKT`. -/
def hashDelInBkt (m : Map P V) (del : P) : Option (Map P V) := do
  let tbl ← m.table
  let n ← m.heap del
  let idx := hashToBkt n.hashv tbl.numBuckets
  let bkt ← tbl.buckets[idx]?
  let heap ← hh.unlink m.heap del
  let hhHead := if bkt.hhHead = some del then n.hhNext else bkt.hhHead
  some { m with
    heap
    table := some { tbl with buckets := tbl.buckets.set idx { bkt with count := bkt.count-1, hhHead } } }

/-- `HASH_DELETE`. -/
def hashDelete (m : Map P V) (del : P) : Option (Map P V) := do
  let tbl ← m.table
  let n ← m.heap del
  let m ←
    if n.prev = none ∧ n.next = none then
      some { m with head := none, table := none }
    else do
      let tail := if some del = tbl.tail then n.prev else tbl.tail
      let heap ← app.unlink m.heap del
      let head := if n.prev = none then n.next else m.head
      let m ← hashDelInBkt { heap, head, table := some { tbl with tail } } del
      let tbl ← m.table
      some { m with table := some { tbl with numItems := tbl.numItems-1 } }
  let heap ← release m.heap del
  some { m with heap }

/-- The loop of `HASH_FIND` over a chain. -/
def hashFindLoop (heap : Store P (Element P V)) (hashv : UInt32) (key : List UInt8) : Nat → Option P → Option (Option P)
  | _, none => some none
  | 0, some _ => none
  | k+1, some el => do
    let n ← heap el
    if n.hashv = hashv ∧ n.key = key then
      some (some el)
    else
      hashFindLoop heap hashv key k n.hhNext

/-- `HASH_FIND`. -/
def hashFind (m : Map P V) (key : List UInt8) : Option (Option P) :=
  match m.head with
  | none => some none
  | some _ => do
    let tbl ← m.table
    let hashv := hashJen key
    let bkt ← tbl.buckets[hashToBkt hashv tbl.numBuckets]?
    hashFindLoop m.heap hashv key bkt.count bkt.hhHead

/-! ## The functions of a map -/

/-- `MAP_INSERT_VALUE`, on `map_insert_n`: the place of the value, which is set,
    or NULL. -/
def mapInsert (m : Map P V) (key : List UInt8) (val : V) (room : Room P) : Option (Option P × Map P V) :=
  match room.element with
  | none => some (none,m)
  | some el => do
    let zero := Function.update m.heap el (some ⟨none,none,none,none,key,0,val⟩)
    match ← hashAdd { m with heap := zero } key el room with
    | (true,m) => some (none,m)
    | (false,m) => some (some el,m)

/-- `map_find`. -/
def mapFind (m : Map P V) (key : List UInt8) : Option (Option P) := hashFind m key

/-- `map_remove`. -/
def mapRemove (m : Map P V) (key : List UInt8) : Option (Map P V) := do
  match ← hashFind m key with
  | none => some m
  | some el => hashDelete m el

/-- `struct map_iterator`. -/
structure Iterator (P : Type) where
  el : Option P
  nx : Option P

/-- `map_iterate`. -/
def mapIterate (m : Map P V) (it : Iterator P) : Option (Option P × Iterator P) :=
  if it.el = none ∧ it.nx = none then
    match m.head with
    | none => some (none,it)
    | some el => do
      let n ← m.heap el
      some (some el,⟨some el,n.next⟩)
  else
    match it.nx with
    | none => some (none,it)
    | some el => do
      let n ← m.heap el
      some (some el,{ it with nx := n.next })

end
end Robsd.HashMap
