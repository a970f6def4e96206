import Robsd.ReportLogs

/-!
Removing the shell traces around a log (`regress_log_trim`). The offset of the last
run of traces is kept while lines are collected; it is given up as soon as
another line follows.
-/
namespace Robsd.LogTrim
open Robsd.Strings
open Robsd.ConfigLayout (intMax i32_of_bounds)
open Robsd.ConfigLexer (i32)
open Robsd.Interpolate (getline getline_length)
open Robsd.RegressLog
open Robsd.Report (precision bufferPrintf written said)
open Robsd.ReportLogs

/-- The loop of `regress_log_trim`: the offset of the traces at the end, or zero, and
    the lines that were collected. -/
def trimLines (text : Str) (xbeg : Bool) (xend : Nat) (bf : Str) : Nat × Str :=
  match _read : getline text with
  | none => (xend,bf)
  | some (chars,rest) =>
    let line := cstring chars
    if xbeg && isxtrace line then trimLines rest xbeg xend bf
    else
      let xend := if isxtrace line then if xend = 0 then bf.length else xend else 0
      trimLines rest false xend (bf ++ line ++ ['\n'])
termination_by text.length
decreasing_by all_goals exact getline_length _read

/-- `regress_log_trim` on the content of the file, if it can be read. What was in the
    output buffer is dropped. -/
def regressLogTrim (file : Option Str) (out : Str) : Int × Str :=
  match file with
  | none => (-1,out)
  | some text =>
    let (xend,bf) := trimLines text true 0 []
    let len := if xend ≠ 0 then xend else bf.length
    (1,written (bufferPrintf [said (precision (i32 len) bf)]))

/-- A log without the traces at its start and at its end. -/
def trimmed (log : List Str) : List Str := (log.dropWhile isxtrace).rdropWhile isxtrace

/-! ## The loop -/

/-- The offset at which the traces at the end of the lines begin, or zero. -/
def cut (kept : List Str) : Nat :=
  if kept.rdropWhile isxtrace = kept then 0 else (unlines (kept.rdropWhile isxtrace)).length

/-- Lines begin with another line than a trace, if there are any. -/
def Started (kept : List Str) : Prop := ∀ line ∈ kept.head?, ¬ isxtrace line = true

theorem dropWhile_started (log : List Str) : Started (log.dropWhile isxtrace) := by
  intro line first
  cases shape : log.dropWhile isxtrace with
  | nil => rw [shape] at first; cases first
  | cons other rest =>
    rw [shape] at first
    cases first
    have nonempty : log.dropWhile isxtrace ≠ [] := by rw [shape]; exact List.cons_ne_nil _ _
    have head := List.head_dropWhile_not isxtrace nonempty
    simp only [shape,List.head_cons] at head
    simp [head]

/-- Lines that begin with another line than a trace are not all dropped. -/
theorem rdropWhile_started {kept : List Str} (started : Started kept) (nonempty : kept ≠ []) :
    kept.rdropWhile isxtrace ≠ [] := by
  intro all
  obtain ⟨line,rest,rfl⟩ := List.exists_cons_of_ne_nil nonempty
  exact started line rfl (List.rdropWhile_eq_nil_iff.mp all line List.mem_cons_self)

theorem unlines_length_pos {kept : List Str} (nonempty : kept ≠ []) : (unlines kept).length ≠ 0 := by
  obtain ⟨line,rest,rfl⟩ := List.exists_cons_of_ne_nil nonempty
  simp [unlines]

theorem cut_other (kept : List Str) {line : Str} (other : ¬ isxtrace line = true) : cut (kept ++ [line]) = 0 := by
  rw [cut,List.rdropWhile_concat_neg isxtrace kept line other,if_pos rfl]

/-- The offset stays where it is once there is one. -/
theorem cut_trace {kept : List Str} (started : Started kept) (nonempty : kept ≠ []) {line : Str}
    (plus : isxtrace line = true) :
    cut (kept ++ [line]) = if cut kept = 0 then (unlines kept).length else cut kept := by
  have shorter : kept.rdropWhile isxtrace ≠ kept ++ [line] := by
    intro same
    have size := (List.rdropWhile_prefix isxtrace kept).length_le
    rw [same,List.length_append,List.length_singleton] at size
    omega
  rw [cut,List.rdropWhile_concat_pos isxtrace kept line plus,if_neg shorter]
  by_cases whole : kept.rdropWhile isxtrace = kept
  · rw [cut,if_pos whole,if_pos rfl,whole]
  · rw [cut,if_neg whole,if_neg (unlines_length_pos (rdropWhile_started started nonempty))]

section
variable {text chars rest : Str} {xbeg : Bool} {xend : Nat} {bf : Str}

theorem trimLines_end (read : getline text = none) : trimLines text xbeg xend bf = (xend,bf) := by
  rw [trimLines]
  split
  · rfl
  · next more => rw [read] at more; cases more

theorem trimLines_next (read : getline text = some (chars,rest)) : trimLines text xbeg xend bf =
    if xbeg && isxtrace (cstring chars) then trimLines rest xbeg xend bf
    else trimLines rest false (if isxtrace (cstring chars) then if xend = 0 then bf.length else xend else 0)
      (bf ++ cstring chars ++ ['\n']) := by
  rw [trimLines]
  split
  · next ended => rw [read] at ended; cases ended
  · next read' =>
    rw [read] at read'
    cases read'
    rfl

end

/-- The lines collected so far determine the offset. -/
theorem trimLines_cut (text : Str) (xbeg : Bool) (kept : List Str)
    (started : Started (kept ++ traced xbeg (lines text))) :
    trimLines text xbeg (cut kept) (unlines kept) =
      (cut (kept ++ traced xbeg (lines text)),unlines (kept ++ traced xbeg (lines text))) := by
  induction size : text.length using Nat.strongRecOn generalizing text xbeg kept with
  | _ n ih =>
    cases read : getline text with
    | none =>
      rw [trimLines_end read,lines_end read]
      cases xbeg <;> simp [traced]
    | some found =>
      obtain ⟨chars,rest⟩ := found
      have shorter : rest.length < n := size ▸ getline_length read
      rw [lines_next read] at started ⊢
      rw [trimLines_next read]
      by_cases leading : (xbeg && isxtrace (cstring chars)) = true
      · obtain ⟨rfl,plus⟩ := Bool.and_eq_true_iff.mp leading
        have same : traced true (cstring chars :: lines rest) = traced true (lines rest) :=
          List.dropWhile_cons_of_pos plus
        rw [same] at started ⊢
        rw [if_pos leading]
        exact ih rest.length shorter rest true kept started rfl
      · rw [if_neg leading]
        have regroup : kept ++ cstring chars :: traced false (lines rest) =
            kept ++ [cstring chars] ++ traced false (lines rest) := List.append_cons _ _ _
        rw [traced_line leading,regroup] at started ⊢
        rw [← unlines_append]
        have offset : (if isxtrace (cstring chars) then if cut kept = 0 then (unlines kept).length else cut kept
            else 0) = cut (kept ++ [cstring chars]) := by
          by_cases plus : isxtrace (cstring chars) = true
          · have nonempty : kept ≠ [] := by
              rintro rfl
              exact started _ rfl plus
            have started' : Started kept := by
              intro line first
              apply started line
              rw [List.append_assoc,List.head?_append,first]
              rfl
            rw [if_pos plus,cut_trace started' nonempty plus]
          · rw [if_neg plus,cut_other kept plus]
        rw [offset]
        exact ih rest.length shorter rest false _ started rfl

/-- What is printed is the collected text up to the offset. -/
theorem take_cut {kept : List Str} (started : Started kept) :
    (unlines kept).take (if cut kept ≠ 0 then cut kept else (unlines kept).length) =
      unlines (kept.rdropWhile isxtrace) ∧
      (if cut kept ≠ 0 then cut kept else (unlines kept).length) = (unlines (kept.rdropWhile isxtrace)).length := by
  by_cases whole : kept.rdropWhile isxtrace = kept
  · have none : cut kept = 0 := if_pos whole
    rw [if_neg (fun found => found none),List.take_length,whole]
    exact ⟨rfl,rfl⟩
  · have nonempty : kept ≠ [] := by
      rintro rfl
      exact whole rfl
    have offset : cut kept = (unlines (kept.rdropWhile isxtrace)).length := if_neg whole
    rw [offset,if_pos (unlines_length_pos (rdropWhile_started started nonempty))]
    refine ⟨?_,rfl⟩
    have split : unlines kept = unlines (kept.rdropWhile isxtrace) ++ unlines (kept.rtakeWhile isxtrace) := by
      rw [unlines,unlines,unlines,← List.flatMap_append,List.rdropWhile_append_rtakeWhile]
    rw [split,List.take_left]

/-! ## The output -/

theorem trimmed_mem {log : List Str} {line : Str} (member : line ∈ trimmed log) : line ∈ log :=
  (List.dropWhile_suffix _).subset ((List.rdropWhile_prefix _ _).subset member)

theorem trimmed_idempotent (log : List Str) : trimmed (trimmed log) = trimmed log := by
  have started : Started (trimmed log) := by
    intro line first
    obtain ⟨rest,whole⟩ := List.rdropWhile_prefix isxtrace (log.dropWhile isxtrace)
    apply dropWhile_started log line
    rw [← whole,List.head?_append]
    rw [trimmed] at first
    rw [first]
    rfl
  have kept : (trimmed log).dropWhile isxtrace = trimmed log := by
    cases shape : trimmed log with
    | nil => rfl
    | cons line rest => exact List.dropWhile_cons_of_neg (started line (by rw [shape]; rfl))
  rw [trimmed,kept]
  exact List.rdropWhile_idempotent _ _

/-- At most as much is printed as the result of `vsnprintf` can tell. -/
theorem bufferPrintf_length (out : List Report.Piece) : (written (bufferPrintf out)).length ≤ intMax := by
  unfold bufferPrintf
  by_cases fits : (written out).length ≤ intMax
  · rw [if_pos fits]
    exact fits
  · rw [if_neg fits]
    exact Nat.zero_le _

theorem regressLogTrim_length (text out : Str) : (regressLogTrim (some text) out).2.length ≤ intMax := by
  simp only [regressLogTrim]
  exact bufferPrintf_length _

/-- What is printed of a log is what remains of it, provided that its length is an int. -/
theorem regressLogTrim_eq {text : Str} (fits : (unlines (trimmed (lines text))).length ≤ intMax) (out : Str) :
    regressLogTrim (some text) out = (1,unlines (trimmed (lines text))) := by
  have started : Started ((lines text).dropWhile isxtrace) := dropWhile_started (lines text)
  have run : trimLines text true 0 [] = _ := trimLines_cut text true [] started
  obtain ⟨front,offset⟩ := take_cut started
  have noNul : ∀ line ∈ trimmed (lines text), nul ∉ line :=
    fun line member => (lines_plain text line (trimmed_mem member)).2
  have small : i32 (unlines (trimmed (lines text))).length = (unlines (trimmed (lines text))).length :=
    i32_of_bounds (by omega) (by simp only [intMax] at fits; omega)
  simp only [regressLogTrim,run,traced,↓reduceIte,List.nil_append]
  rw [offset]
  rw [offset] at front
  rw [trimmed] at small fits noNul
  have printed : precision (i32 (unlines (((lines text).dropWhile isxtrace).rdropWhile isxtrace)).length)
      (unlines ((lines text).dropWhile isxtrace)) =
        unlines (((lines text).dropWhile isxtrace).rdropWhile isxtrace) := by
    rw [precision,small,if_neg (by omega),Int.toNat_natCast,front,unlines_whole noNul]
  rw [printed,trimmed]
  simp [bufferPrintf,written,said,fits]

/-- The output is the log without the traces at its start and at its end, and the same
    again when it is trimmed once more, exactly where its length is an int. -/
theorem regressLogTrim_iff (text out out' : Str) :
    (regressLogTrim (some text) out = (1,unlines (trimmed (lines text))) ∧
      regressLogTrim (some (regressLogTrim (some text) out).2) out' = (1,(regressLogTrim (some text) out).2)) ↔
    (unlines (trimmed (lines text))).length ≤ intMax := by
  constructor
  · rintro ⟨same,_⟩
    have fits := regressLogTrim_length text out
    rwa [same] at fits
  · intro fits
    have read : lines (unlines (trimmed (lines text))) = trimmed (lines text) :=
      lines_unlines fun line member => lines_plain text line (trimmed_mem member)
    rw [regressLogTrim_eq fits]
    refine ⟨rfl,?_⟩
    have again := @regressLogTrim_eq (unlines (trimmed (lines text))) (by rw [read,trimmed_idempotent]; exact fits) out'
    rwa [read,trimmed_idempotent] at again

/-- A line that is no trace is not printed if its length is not below the largest int. -/
theorem regressLogTrim_long {line : Str} (plain : '\n' ∉ line ∧ nul ∉ line) (other : ¬ isxtrace line = true)
    (long : intMax ≤ line.length) (out : Str) :
    regressLogTrim (some (unlines [line])) out ≠ (1,unlines (trimmed (lines (unlines [line])))) := by
  have read : lines (unlines [line]) = [line] := lines_unlines fun l member => List.mem_singleton.mp member ▸ plain
  have kept : trimmed [line] = [line] := by
    rw [trimmed,List.dropWhile_cons_of_neg other]
    exact List.rdropWhile_concat_neg isxtrace [] line other
  intro same
  have fits := regressLogTrim_length (unlines [line]) out
  rw [same,read,kept] at fits
  simp [unlines] at fits
  omega

/-- A log of two gigabytes in one line is lost. -/
theorem regressLogTrim_lost : regressLogTrim (some (unlines [List.replicate intMax 'a'])) [] ≠
    (1,unlines (trimmed (lines (unlines [List.replicate intMax 'a'])))) := by
  refine regressLogTrim_long ⟨?_,?_⟩ ?_ (List.length_replicate ▸ Nat.le_refl _) []
  · intro inside
    exact absurd (List.eq_of_mem_replicate inside) (by decide)
  · intro inside
    exact absurd (List.eq_of_mem_replicate inside) (by decide)
  · have first : (List.replicate intMax 'a').head? = some 'a' := List.head?_replicate.trans (if_neg (by simp [intMax]))
    rw [isxtrace,first]
    decide

end Robsd.LogTrim
