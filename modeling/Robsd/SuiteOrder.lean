import Mathlib.Data.Prod.Lex
import Mathlib.Data.List.Lex
import Robsd.RegressRuns

/-!
The order in which robsd-regress-html shows the suites (regress-html.c): those
that failed, then the suites of the regress tree, then the others.
-/
namespace Robsd.SuiteOrder
open Robsd.Strings
open Robsd.Sorting (Qsort mem_sort sort_strict strict_unique)
open Robsd.RegressRuns

/-- What `suite_cmp` compares: the number of failures in descending order, then the name. -/
def suiteCmp (suite : Suite) : ℕᵒᵈ ×ₗ Str := toLex (OrderDual.toDual suite.fail,suite.name)

/-- The vectors that `sort_suites` fills. -/
structure Vectors where
  all : List Suite := []
  pass : List Suite := []
  nonregress : List Suite := []

/-- One turn of the loop over the map of suites. -/
def Vectors.add (v : Vectors) (suite : Suite) : Vectors :=
  if 0 < suite.fail then { v with all := v.all ++ [suite] }
  else if suite.type = .informative ∨ suite.type = .nonRegress then { v with nonregress := v.nonregress ++ [suite] }
  else { v with pass := v.pass ++ [suite] }

/-- `sort_suites`, with the suites in the order in which the map is iterated over. -/
def sortSuites (q : Qsort suiteCmp) (suites : List Suite) : List Suite :=
  let v := suites.foldl Vectors.add {}
  q.sort v.all ++ q.sort v.pass ++ q.sort v.nonregress

/-! ## The order -/

/-- The part a suite is shown in: failed, of the regress tree, or other. -/
def part (suite : Suite) : Nat :=
  if 0 < suite.fail then 0
  else if suite.type = .informative ∨ suite.type = .nonRegress then 2
  else 1

/-- One suite is shown before another one: in an earlier part, or in the same one
    with more failures, or with as many and a lesser name. -/
def Before (a b : Suite) : Prop :=
  part a < part b ∨ part a = part b ∧ (b.fail < a.fail ∨ a.fail = b.fail ∧ a.name < b.name)

/-- Where a suite is shown, as a key. -/
def position (suite : Suite) : ℕ ×ₗ ℕᵒᵈ ×ₗ Str := toLex (part suite,suiteCmp suite)

theorem suiteCmp_lt {a b : Suite} : suiteCmp a < suiteCmp b ↔ b.fail < a.fail ∨ a.fail = b.fail ∧ a.name < b.name := by
  simp only [suiteCmp,Prod.Lex.toLex_lt_toLex,OrderDual.toDual_lt_toDual,OrderDual.toDual_inj]

theorem position_lt {a b : Suite} : position a < position b ↔ Before a b := by
  simp only [position,Prod.Lex.toLex_lt_toLex,suiteCmp_lt,Before]

/-- The vectors hold the suites of the three parts. -/
theorem add_parts (suites : List Suite) (v : Vectors) : suites.foldl Vectors.add v =
    ⟨v.all ++ suites.filter fun suite => part suite = 0,v.pass ++ suites.filter fun suite => part suite = 1,
      v.nonregress ++ suites.filter fun suite => part suite = 2⟩ := by
  induction suites generalizing v with
  | nil => simp
  | cons suite suites ih =>
    rw [List.foldl_cons,ih]
    unfold Vectors.add
    by_cases failed : 0 < suite.fail
    · have first : part suite = 0 := by rw [part,if_pos failed]
      simp [failed,first]
    by_cases other : suite.type = .informative ∨ suite.type = .nonRegress
    · have last : part suite = 2 := by rw [part,if_neg failed,if_pos other]
      simp [failed,other,last]
    · have middle : part suite = 1 := by rw [part,if_neg failed,if_neg other]
      simp [failed,other,middle]

theorem part_lt (suite : Suite) : part suite < 3 := by
  unfold part
  split_ifs <;> decide

theorem sortSuites_eq (q : Qsort suiteCmp) (suites : List Suite) : sortSuites q suites =
    q.sort (suites.filter fun suite => part suite = 0) ++ q.sort (suites.filter fun suite => part suite = 1) ++
      q.sort (suites.filter fun suite => part suite = 2) := by
  simp only [sortSuites,add_parts,List.nil_append]

theorem parts_perm (suites : List Suite) :
    ((suites.filter fun suite => part suite = 0) ++ (suites.filter fun suite => part suite = 1) ++
      suites.filter fun suite => part suite = 2).Perm suites := by
  induction suites with
  | nil => exact .nil
  | cons suite suites ih =>
    have below := part_lt suite
    by_cases first : part suite = 0
    · simpa [first] using ih
    by_cases middle : part suite = 1
    · simp only [List.filter_cons,middle,Nat.one_ne_zero,decide_false,decide_true,Bool.false_eq_true,↓reduceIte,
        show ¬ (1 = 2) from by decide,List.append_assoc,List.cons_append] at ih ⊢
      exact List.perm_middle.trans (ih.cons suite)
    · have last : part suite = 2 := by omega
      simp only [List.filter_cons,last,decide_false,decide_true,Bool.false_eq_true,↓reduceIte,
        show ¬ (2 = 0) from by decide,show ¬ (2 = 1) from by decide] at ih ⊢
      exact List.perm_middle.trans (ih.cons suite)

/-- No suite is lost or shown twice. -/
theorem sortSuites_perm (q : Qsort suiteCmp) (suites : List Suite) : (sortSuites q suites).Perm suites := by
  rw [sortSuites_eq]
  exact (((q.perm _).append (q.perm _)).append (q.perm _)).trans (parts_perm suites)

theorem mem_part {q : Qsort suiteCmp} {suites : List Suite} {k : Nat} {suite : Suite}
    (member : suite ∈ q.sort (suites.filter fun suite => part suite = k)) : part suite = k := by
  have kept := (List.mem_filter.mp ((mem_sort q).mp member)).2
  simpa using kept

/-- Suites of different names are in order within their part. -/
theorem part_ordered (q : Qsort suiteCmp) {suites : List Suite} (distinct : (suites.map Suite.name).Nodup) (k : Nat) :
    (q.sort (suites.filter fun suite => part suite = k)).Pairwise Before := by
  have names : ((suites.filter fun suite => part suite = k).map Suite.name).Nodup :=
    distinct.sublist (List.filter_sublist.map Suite.name)
  have keys : ((suites.filter fun suite => part suite = k).map suiteCmp).Nodup := by
    apply List.Nodup.of_map (fun key => (ofLex key).2)
    rw [List.map_map]
    exact names
  apply (sort_strict q keys).imp_of_mem
  intro a b here there less
  exact .inr ⟨(mem_part here).trans (mem_part there).symm,suiteCmp_lt.mp less⟩

/-- Every suite of a part is before every suite of a later part. -/
theorem sortSuites_ordered (q : Qsort suiteCmp) {suites : List Suite} (distinct : (suites.map Suite.name).Nodup) :
    (sortSuites q suites).Pairwise Before := by
  rw [sortSuites_eq,List.pairwise_append,List.pairwise_append]
  refine ⟨⟨part_ordered q distinct 0,part_ordered q distinct 1,?_⟩,part_ordered q distinct 2,?_⟩
  · intro a first b second
    left
    rw [mem_part first,mem_part second]
    decide
  · intro a earlier b last
    left
    rw [mem_part last]
    rcases List.mem_append.mp earlier with first | second
    · rw [mem_part first]
      decide
    · rw [mem_part second]
      decide

/-- The suites are shown in the one order in which those that failed come first,
    then those of the regress tree, then the others, whatever the order of the map
    and the order in which sorting leaves equal elements. -/
theorem sort_suites_order (q q' : Qsort suiteCmp) {suites suites' : List Suite}
    (distinct : (suites.map Suite.name).Nodup) (same : suites'.Perm suites) :
    (sortSuites q suites).Perm suites ∧ (sortSuites q suites).Pairwise Before ∧
      sortSuites q' suites' = sortSuites q suites := by
  have distinct' : (suites'.map Suite.name).Nodup := (same.map Suite.name).nodup_iff.mpr distinct
  have ordered := sortSuites_ordered q distinct
  have ordered' := sortSuites_ordered q' distinct'
  refine ⟨sortSuites_perm q suites,ordered,?_⟩
  refine (@strict_unique _ _ _ position _ _) ?_ (ordered'.imp position_lt.mpr) (ordered.imp position_lt.mpr)
  exact (sortSuites_perm q' suites').trans (same.trans (sortSuites_perm q suites).symm)

/-- Suites of every part, one of which failed. -/
def suitesOfAllParts : List Suite :=
  [⟨['p','k','g','-','a','d','d'],.informative,0,[]⟩,⟨['b','i','n','/','c','a','t'],.regress,0,[]⟩,
    ⟨['.','.','/','a'],.nonRegress,0,[]⟩,⟨['s','y','s','/','f'],.regress,2,[]⟩]

theorem sort_suites_order_parts :
    (sortSuites (Sorting.insertion suiteCmp) suitesOfAllParts).Perm suitesOfAllParts ∧
      (sortSuites (Sorting.insertion suiteCmp) suitesOfAllParts).Pairwise Before ∧
      sortSuites (Sorting.insertion suiteCmp) suitesOfAllParts.reverse =
        sortSuites (Sorting.insertion suiteCmp) suitesOfAllParts :=
  sort_suites_order (Sorting.insertion suiteCmp) (Sorting.insertion suiteCmp) (by decide) suitesOfAllParts.reverse_perm

end Robsd.SuiteOrder
