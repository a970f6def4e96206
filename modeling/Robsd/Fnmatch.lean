import Mathlib.Data.List.Infix
import Robsd.Strings

/-!
`fnmatch` without flags, for patterns made of plain characters and `*`.
-/
namespace Robsd.Fnmatch
open Robsd.Strings

/-- `fnmatch(pattern, string, 0) == 0`: a star stands for any text. -/
def fnmatch : Str → Str → Bool
  | [],s => s.isEmpty
  | '*' :: pattern,s => s.tails.any fun t => fnmatch pattern t
  | c :: pattern,d :: s => c = d && fnmatch pattern s
  | _ :: _,[] => false

/-- A pattern without a star matches itself only. -/
theorem fnmatch_plain {pattern s : Str} (plain : '*' ∉ pattern) : fnmatch pattern s = true ↔ s = pattern := by
  induction pattern generalizing s with
  | nil => simp [fnmatch]
  | cons c pattern ih =>
    simp only [List.mem_cons,not_or] at plain
    have first : c ≠ '*' := Ne.symm plain.1
    cases s with
    | nil => simp [fnmatch]
    | cons d s => simp [fnmatch,ih plain.2,eq_comm (a := c)]

/-- A pattern with one star matches what starts and ends like it. -/
theorem fnmatch_star {before behind s : Str} (plain : '*' ∉ before) (tail : '*' ∉ behind) :
    fnmatch (before ++ '*' :: behind) s = true ↔ ∃ middle, s = before ++ middle ++ behind := by
  induction before generalizing s with
  | nil =>
    simp only [List.nil_append,fnmatch,List.any_eq_true,List.mem_tails]
    constructor
    · rintro ⟨t,⟨middle,rfl⟩,same⟩
      exact ⟨middle,by rw [(fnmatch_plain tail).mp same]⟩
    · rintro ⟨middle,rfl⟩
      exact ⟨behind,⟨middle,rfl⟩,(fnmatch_plain tail).mpr rfl⟩
  | cons c before ih =>
    simp only [List.mem_cons,not_or] at plain
    have first : c ≠ '*' := Ne.symm plain.1
    cases s with
    | nil => simp [fnmatch]
    | cons d s =>
      simp only [List.cons_append,fnmatch,Bool.and_eq_true,decide_eq_true_eq,ih plain.2,List.cons.injEq]
      constructor
      · rintro ⟨rfl,middle,same⟩
        exact ⟨middle,rfl,same⟩
      · rintro ⟨middle,rfl,same⟩
        exact ⟨rfl,middle,same⟩

end Robsd.Fnmatch
