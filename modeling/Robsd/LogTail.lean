import Robsd.ReportLogs

/-!
The tail of a log in a report (`last_lines`): how many lines it has, and where
it begins.
-/
namespace Robsd.LogTail
open Robsd.Strings
open Robsd.Report
open Robsd.ReportLogs

/-- The length `last_lines` stores next to what it returns. -/
def lastLinesOutlen (str : Str) (nlines : Nat) : Nat := str.length-(lastLinesLoop nlines str).length

/-- How many lines of a text are not empty. -/
def nonemptyLines (text : Str) : Nat := (text.splitOn '\n').countP (· ≠ [])

/-- A line begins behind this text. -/
def Boundary (ahead : Str) : Prop := ahead = [] ∨ ahead.getLast? = some '\n'

/-! ## Counting lines -/

theorem nonemptyLines_nil : nonemptyLines [] = 0 := by simp [nonemptyLines]

theorem nonemptyLines_break (front behind : Str) :
    nonemptyLines (front ++ '\n' :: behind) = nonemptyLines front+nonemptyLines behind := by
  simp [nonemptyLines,List.splitOn_append_cons_self]

/-- Lines are counted apart where a line begins in between. -/
theorem nonemptyLines_append {ahead : Str} (boundary : Boundary ahead) (behind : Str) :
    nonemptyLines (ahead ++ behind) = nonemptyLines ahead+nonemptyLines behind := by
  rcases boundary with rfl | last
  · rw [List.nil_append,nonemptyLines_nil,Nat.zero_add]
  · obtain ⟨front,rfl⟩ := List.getLast?_eq_some_iff.mp last
    have own : nonemptyLines (front ++ ['\n']) = nonemptyLines front := by
      rw [nonemptyLines_break,nonemptyLines_nil,Nat.add_zero]
    rw [own,List.append_assoc,List.singleton_append,nonemptyLines_break]

theorem nonemptyLines_breaks {breaks : Str} (only : ∀ c ∈ breaks, c = '\n') : nonemptyLines breaks = 0 := by
  induction breaks with
  | nil => exact nonemptyLines_nil
  | cons c breaks ih =>
    have rest := ih fun d member => only d (List.mem_cons_of_mem c member)
    rw [only c List.mem_cons_self,← List.nil_append ('\n' :: breaks),nonemptyLines_break,nonemptyLines_nil,rest]

/-- A line with the line breaks behind it is one line that is not empty. -/
theorem nonemptyLines_line {line breaks : Str} (something : line ≠ []) (single : '\n' ∉ line)
    (only : ∀ c ∈ breaks, c = '\n') : nonemptyLines (line ++ breaks) = 1 := by
  have own : nonemptyLines line = 1 := by
    simp [nonemptyLines,List.splitOn_eq_singleton single,something]
  cases breaks with
  | nil => rw [List.append_nil,own]
  | cons c breaks =>
    have rest := nonemptyLines_breaks fun d member => only d (List.mem_cons_of_mem c member)
    rw [only c List.mem_cons_self,nonemptyLines_break,own,rest]

/-! ## Rounds -/

/-- The two scans of a round. -/
def before (ahead : Str) : Str := (ahead.rdropWhile (· = '\n')).rdropWhile (· ≠ '\n')

theorem before_boundary (ahead : Str) : Boundary (before ahead) := by
  by_cases started : before ahead = []
  · exact .inl started
  · refine .inr ?_
    have last := List.rdropWhile_last_not (· ≠ '\n') _ started
    rw [List.getLast?_eq_some_getLast started]
    exact congrArg some (by_contra fun other => last (decide_eq_true other))

/-- A round takes one of the lines that are not empty, if there are any. -/
theorem before_lines (ahead : Str) : nonemptyLines (before ahead) = nonemptyLines ahead-1 := by
  by_cases nonblank : Nonblank ahead
  · obtain ⟨line,breaks,whole,something,single,only⟩ := round_line nonblank
    have counted : nonemptyLines ahead = nonemptyLines (before ahead)+1 := calc
      nonemptyLines ahead = nonemptyLines (before ahead ++ (line ++ breaks)) := congrArg nonemptyLines whole
      _ = nonemptyLines (before ahead)+nonemptyLines (line ++ breaks) := nonemptyLines_append (before_boundary ahead) _
      _ = nonemptyLines (before ahead)+1 := by rw [nonemptyLines_line something single only]
    omega
  · have only : ∀ c ∈ ahead, c = '\n' := by
      intro c member
      by_contra other
      exact nonblank ⟨c,member,other⟩
    have nothing : before ahead = [] := by
      rw [before,List.rdropWhile_eq_nil_iff.mpr fun c member => decide_eq_true (only c member)]
      rfl
    rw [nothing,nonemptyLines_nil,nonemptyLines_breaks only]

/-- The exit at the start of the buffer ends the loop where further rounds do nothing. -/
theorem lastLinesLoop_before (n : Nat) (ahead : Str) : lastLinesLoop (n+1) ahead = lastLinesLoop n (before ahead) := by
  rw [lastLinesLoop_succ]
  by_cases started : before ahead = []
  · rw [before] at started
    rw [if_pos started,before,started]
    exact (List.prefix_nil.mp (lastLinesLoop_ahead n [])).symm
  · rw [before] at started
    rw [if_neg started,before]

theorem lastLinesLoop_boundary (n : Nat) (ahead : Str) : Boundary (lastLinesLoop (n+1) ahead) := by
  induction n generalizing ahead with
  | zero =>
    rw [lastLinesLoop_before]
    exact before_boundary ahead
  | succ n ih =>
    rw [lastLinesLoop_before]
    exact ih (before ahead)

theorem lastLinesLoop_lines (n : Nat) (ahead : Str) :
    nonemptyLines (lastLinesLoop n ahead) = nonemptyLines ahead-n := by
  induction n generalizing ahead with
  | zero => rfl
  | succ n ih =>
    rw [lastLinesLoop_before,ih,before_lines]
    omega

/-! ## The tail -/

theorem lastLines_behind (str : Str) (n : Nat) : str = lastLinesLoop n str ++ lastLines str n := by
  obtain ⟨tail,whole⟩ := lastLinesLoop_ahead n str
  rw [lastLines]
  generalize lastLinesLoop n str = ahead at whole ⊢
  subst whole
  rw [List.drop_left]

/-- The tail has as many of the lines that are not empty as were asked for, or all
    of them. It begins with a line, except that no lines are asked for of a text in
    which none begins at the end. -/
theorem lastLines_tail (str : Str) (n : Nat) : ∃ ahead, str = ahead ++ lastLines str n ∧
    (Boundary ahead ↔ n ≠ 0 ∨ Boundary str) ∧
    nonemptyLines (lastLines str n) = min n (nonemptyLines str) ∧
    lastLinesOutlen str n = (lastLines str n).length ∧ (n = 0 → lastLines str n = []) := by
  refine ⟨lastLinesLoop n str,lastLines_behind str n,?_,?_,?_,?_⟩
  · cases n with
    | zero => simp [lastLinesLoop]
    | succ n => exact iff_of_true (lastLinesLoop_boundary n str) (.inl (Nat.succ_ne_zero n))
  · cases n with
    | zero => simp [lastLines,lastLinesLoop,nonemptyLines_nil]
    | succ n =>
      have counted := congrArg nonemptyLines (lastLines_behind str (n+1))
      rw [nonemptyLines_append (lastLinesLoop_boundary n str),lastLinesLoop_lines] at counted
      omega
  · rw [lastLinesOutlen,lastLines,List.length_drop]
  · rintro rfl
    simp [lastLines,lastLinesLoop]

/-- Asked for no lines of `abc`, the empty tail begins within the line. -/
theorem lastLines_none : ¬ ∃ ahead, "abc".toList = ahead ++ lastLines "abc".toList 0 ∧ Boundary ahead := by
  rintro ⟨ahead,whole,boundary⟩
  have all : "abc".toList = ahead := by simpa [lastLines,lastLinesLoop] using whole
  subst all
  rcases boundary with nothing | last
  · cases nothing
  · simp at last

end Robsd.LogTail
