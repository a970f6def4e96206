import Mathlib.Data.List.Nodup
import Robsd.RegressRoundTrip

/-!
References to `${rdomain}` (conf-robsd-regress.c), which count up and start over
at the end: the values of successive references and how far apart equal ones are.
-/
namespace Robsd.Rdomain
open Robsd.Strings
open Robsd.Modes
open Robsd.Configuration

def rdomain : Str := "rdomain".toList

/-- The values of successive references to `${rdomain}`. -/
def references (host : Host) : Nat → Config → List (Option Value)
  | 0,_ => []
  | n+1,cf => (configFind host rdomain cf).1 :: references host n (configFind host rdomain cf).2

/-- The configuration of a process that did not resolve a reference yet. -/
structure Fresh (cf : Config) : Prop where
  mode : cf.mode = .robsdRegress
  unset : cf.value rdomain = none
  first : cf.rdomain = rdomainMin

/-- References are resolved by `config_default_rdomain`. -/
theorem configFind_rdomain {host : Host} {cf : Config} (mode : cf.mode = .robsdRegress)
    (unset : cf.value rdomain = none) :
    configFind host rdomain cf = configDefaultRdomain cf := by
  have table : configFindGrammarForInterpolation .robsdRegress rdomain =
      some ⟨rdomain,.integer,none,{ early := true },.fn .rdomain⟩ := by decide
  rw [configFind_absent unset,mode,table]
  rfl

/-- The counter before a reference, by how many references came before. -/
def counter (i : Nat) : Int := 32+(i%225 : Nat)

/-- The number a reference gets: at the end of the range the first one is given
    out, and once more afterwards. -/
def numbered (i : Nat) : Int := if i%225 = 224 then 32 else counter i

/-- A reference gets its number and leaves the counter for the next one. -/
theorem reference_step {host : Host} {cf : Config} {i : Nat} (mode : cf.mode = .robsdRegress)
    (unset : cf.value rdomain = none) (at_ : cf.rdomain = counter i) :
    configFind host rdomain cf = (some (.integer (numbered i)),{ cf with rdomain := counter (i+1) }) := by
  rw [configFind_rdomain mode unset,configDefaultRdomain,at_]
  by_cases last : i%225 = 224
  · have full : counter i = rdomainMax := by simp only [counter,rdomainMax]; omega
    have again : counter (i+1) = rdomainMin := by simp only [counter,rdomainMin]; omega
    rw [if_pos full,numbered,if_pos last,again]
    rfl
  · have more : counter i ≠ rdomainMax := by simp only [counter,rdomainMax]; omega
    have next : counter i+1 = counter (i+1) := by simp only [counter]; omega
    rw [if_neg more,numbered,if_neg last,next]

theorem references_from {host : Host} {cf : Config} {i : Nat} (mode : cf.mode = .robsdRegress)
    (unset : cf.value rdomain = none) (at_ : cf.rdomain = counter i) (n : Nat) :
    references host n cf = (List.range' i n).map fun i => some (.integer (numbered i)) := by
  induction n generalizing cf i with
  | zero => rfl
  | succ n ih =>
    have here := @reference_step host cf i mode unset at_
    rw [references,here,List.range'_succ,List.map_cons]
    exact congrArg _ (ih mode unset rfl)

/-- The values of all references. -/
theorem references_eq {host : Host} {cf : Config} (fresh : Fresh cf) (n : Nat) :
    references host n cf = (List.range' 0 n).map fun i => some (.integer (numbered i)) :=
  references_from fresh.mode fresh.unset (fresh.first.trans (by decide)) n

theorem numbered_bounds (i : Nat) : 32 ≤ numbered i ∧ numbered i ≤ 255 := by
  unfold numbered counter
  split <;> omega

/-- Equal numbers that are close were given out at the end of the range and right
    after it. -/
theorem numbered_close {i j : Nat} (less : i < j) (close : j < i+224) :
    numbered i = numbered j ↔ i%225 = 224 ∧ j = i+1 := by
  unfold numbered counter
  split <;> split <;> omega

/-- The references of a window. -/
theorem window_eq {host : Host} {cf : Config} (fresh : Fresh cf) {n first count : Nat} (inside : first+count ≤ n) :
    ((references host n cf).drop first).take count = (List.range' first count).map fun i =>
      some (.integer (numbered i)) := by
  have parts : List.range' 0 n = List.range' 0 first ++
    (List.range' first count ++ List.range' (first+count) (n-(first+count))) := by
    rw [List.range'_append_1]
    have joined := List.range'_append_1 (s := 0) (m := first) (n := count+(n-(first+count)))
    rw [Nat.zero_add] at joined
    rw [joined]
    congr 1
    omega
  rw [references_eq fresh,parts,← List.map_drop,← List.map_take,List.drop_left' List.length_range',
    List.take_left' List.length_range']

theorem window_nodup {first count : Nat} (few : count ≤ 224) :
    ((List.range' first count).map fun i => some (Value.integer (numbered i))).Nodup ↔ first%225+count ≤ 225 := by
  rw [List.nodup_map_iff_inj_on List.nodup_range']
  simp only [List.mem_range'_1,Option.some.injEq,Value.integer.injEq]
  constructor
  · intro apart
    by_contra long
    have same : numbered (first-first%225+224) = numbered (first-first%225+225) :=
      (numbered_close (by omega) (by omega)).mpr ⟨by omega,rfl⟩
    have := apart _ ⟨by omega,by omega⟩ _ ⟨by omega,by omega⟩ same
    omega
  · intro short i ⟨_,_⟩ j ⟨_,_⟩ same
    rcases Nat.lt_trichotomy i j with less | equal | less
    · have := (numbered_close less (by omega)).mp same
      omega
    · exact equal
    · have := (numbered_close less (by omega)).mp same.symm
      omega

/-- All references get a number in the range. Those of a window of at most 224 get
    different ones exactly when it does not contain both the reference at which
    the range ends and the next one, so all windows do up to 225 references. -/
theorem references_distinct_iff {host : Host} {cf : Config} (fresh : Fresh cf) (n : Nat) :
    (∀ val ∈ references host n cf, ∃ number : Int, val = some (.integer number) ∧ 32 ≤ number ∧ number ≤ 255) ∧
    (∀ first count, count ≤ 224 → first+count ≤ n →
      ((((references host n cf).drop first).take count).Nodup ↔ first%225+count ≤ 225)) ∧
    ((∀ first count, count ≤ 224 → first+count ≤ n → (((references host n cf).drop first).take count).Nodup) ↔
      n ≤ 225) := by
  refine ⟨?_,?_,?_⟩
  · intro val member
    rw [references_eq fresh] at member
    obtain ⟨i,_,rfl⟩ := List.mem_map.mp member
    exact ⟨numbered i,rfl,numbered_bounds i⟩
  · intro first count few inside
    rw [window_eq fresh inside]
    exact window_nodup few
  · constructor
    · intro all
      by_contra many
      have last := all 224 2 (by omega) (by omega)
      rw [window_eq fresh (by omega),window_nodup (by omega)] at last
      omega
    · intro few first count small inside
      rw [window_eq fresh inside,window_nodup small]
      have := Nat.mod_le first 225
      omega

theorem fresh_alloc : Fresh (configAlloc .robsdRegress) := ⟨rfl,rfl,rfl⟩

theorem references_distinct_iff_alloc : Fresh (configAlloc .robsdRegress) ∧
    ((∀ first count, count ≤ 224 → first+count ≤ 225 → (((references RegressRoundTrip.sampleHost 225
      (configAlloc .robsdRegress)).drop first).take count).Nodup) ↔ 225 ≤ 225) :=
  ⟨fresh_alloc,(references_distinct_iff fresh_alloc 225).2.2⟩

/-- The last reference before the range starts over and the first one after it get
    the same number. -/
theorem references_repeat :
    ¬ (((references RegressRoundTrip.sampleHost 226 (configAlloc .robsdRegress)).drop 224).take 2).Nodup := by
  rw [window_eq fresh_alloc (by decide)]
  decide

end Robsd.Rdomain
