import Mathlib.Data.List.Infix
import Robsd.Interpolate
import Robsd.Segments

/-!
Logs of regress tests (regress-log.c): the outcomes a line tells, and the pass
over a log that extracts the test targets with the outcomes asked for.
-/
namespace Robsd.RegressLog
open Robsd.Strings
open Robsd.Interpolate (getline getline_length getline_single getline_line)
open Robsd.Segments

/-- The outcomes among the `REGRESS_LOG` flags. -/
structure Outcomes where
  failed : Bool
  skipped : Bool
  xfailed : Bool
  xpassed : Bool

/-- All `REGRESS_LOG` flags. -/
structure Flags extends Outcomes where
  newline : Bool := false
  peek : Bool := false

/-- The C string at the start of a buffer that ends in a NUL. -/
def cstring (chars : Str) : Str := chars.takeWhile (· ≠ nul)

/-- Whether `strstr` finds a text. -/
def strstr (str needle : Str) : Bool := str.tails.any needle.isPrefixOf

/-- The loop of `ismarker_regress`, given the character before. -/
def skipName : Char → Str → Str
  | _,[] => []
  | before,c :: cs => if before = ' ' ∧ c = '=' then c :: cs else skipName c cs

/-- `ismarker_regress`. -/
def ismarkerRegress (str : Str) : Bool :=
  "==== ".toList.isPrefixOf str && skipName ' ' (str.drop 5) = "====".toList

/-- `ismarker_subdir`. -/
def ismarkerSubdir (str : Str) : Bool := "===>".toList.isPrefixOf str

def ismarker (str : Str) : Bool := ismarkerRegress str || ismarkerSubdir str

def isskipped (str : Str) : Bool := strstr str "SKIPPED".toList || strstr str "DISABLED".toList

def isfailed (str : Str) : Bool := strstr str "FAILED".toList

def isxfailed (str : Str) : Bool := strstr str "EXPECTED_FAIL".toList

def isxpassed (str : Str) : Bool := strstr str "UNEXPECTED_PASS".toList

def isxtrace (str : Str) : Bool := str.head? = some '+'

/-- Whether a line tells one of the outcomes asked for. -/
def matching (flags : Outcomes) (line : Str) : Bool :=
  flags.skipped && isskipped line || flags.failed && isfailed line || flags.xfailed && isxfailed line ||
    flags.xpassed && isxpassed line

/-- The loop of `regress_log_parse_impl`: how many targets were extracted, and
    what is in the output buffer. -/
def parseLines (flags : Flags) (text : Str) (xtrace : Bool) (scratch out : Str) (nfound : Nat) : Nat × Str :=
  match _read : getline text with
  | none => (nfound,out)
  | some (chars,rest) =>
    let line := cstring chars
    if xtrace && isxtrace line then parseLines flags rest xtrace scratch out nfound
    else
      let scratch := (if ismarker line then [] else scratch) ++ line ++ ['\n']
      if matching flags.toOutcomes line then
        let first := nfound = 0 ∧ flags.newline = false
        if flags.peek then (nfound+1,out)
        else
          parseLines flags rest false [] (out ++ (if first then [] else ['\n']) ++ cstring scratch) (nfound+1)
      else parseLines flags rest false scratch out nfound
termination_by text.length
decreasing_by all_goals exact getline_length _read

/-- `regress_log_parse_impl` on the content of the file, if it can be read. -/
def regressLogParseImpl (file : Option Str) (out : Str) (flags : Flags) : Int × Str :=
  match file with
  | none => (-1,out)
  | some text =>
    let parsed := parseLines flags text true [] out 0
    (parsed.1,parsed.2)

/-- `regress_log_parse`. -/
def regressLogParse (file : Option Str) (out : Str) (flags : Flags) : Int × Str := regressLogParseImpl file out flags

/-- `regress_log_peek`, which has no output buffer. -/
def regressLogPeek (file : Option Str) (flags : Flags) : Int :=
  (regressLogParseImpl file [] { flags with peek := true }).1

/-! ## Lines -/

/-- The lines of a text, each up to its first NUL. -/
def lines (text : Str) : List Str :=
  match _read : getline text with
  | none => []
  | some (chars,rest) => cstring chars :: lines rest
termination_by text.length
decreasing_by exact getline_length _read

/-- A text with the given lines. -/
def unlines (log : List Str) : Str := log.flatMap (· ++ ['\n'])

theorem lines_end {text : Str} (read : getline text = none) : lines text = [] := by
  rw [lines]
  split
  · rfl
  · next more => rw [read] at more; cases more

theorem lines_next {text chars rest : Str} (read : getline text = some (chars,rest)) :
    lines text = cstring chars :: lines rest := by
  rw [lines]
  split
  · next ended => rw [read] at ended; cases ended
  · next read' =>
    rw [read] at read'
    cases read'
    rfl

theorem cstring_noNul (chars : Str) : nul ∉ cstring chars := by
  intro inside
  simpa using List.mem_takeWhile_imp inside

theorem cstring_whole {chars : Str} (noNul : nul ∉ chars) : cstring chars = chars := by
  refine List.takeWhile_eq_self_iff.mpr fun c member => decide_eq_true ?_
  rintro rfl
  exact noNul member

/-- The lines of a log are read as they were written. -/
theorem lines_unlines {log : List Str} (plain : ∀ line ∈ log, '\n' ∉ line ∧ nul ∉ line) :
    lines (unlines log) = log := by
  induction log with
  | nil => exact lines_end rfl
  | cons line log ih =>
    obtain ⟨single,noNul⟩ := plain line (by simp)
    have shape : unlines (line :: log) = line ++ '\n' :: unlines log := by simp [unlines]
    rw [shape,lines_next (getline_line single _),cstring_whole noNul,ih fun l member => plain l (by simp [member])]

theorem lines_plain (text : Str) : ∀ line ∈ lines text, '\n' ∉ line ∧ nul ∉ line := by
  induction size : text.length using Nat.strongRecOn generalizing text with
  | _ n ih =>
    cases read : getline text with
    | none => rw [lines_end read]; exact fun _ impossible => by cases impossible
    | some found =>
      obtain ⟨chars,rest⟩ := found
      rw [lines_next read]
      intro line member
      rcases List.mem_cons.mp member with rfl | later
      · refine ⟨?_,cstring_noNul chars⟩
        intro inside
        exact getline_single read ((List.takeWhile_sublist _).subset inside)
      · exact ih rest.length (size ▸ getline_length read) rest rfl line later

/-- Lines without a NUL are printed whole. -/
theorem unlines_whole {log : List Str} (noNul : ∀ line ∈ log, nul ∉ line) : cstring (unlines log) = unlines log := by
  apply cstring_whole
  intro member
  obtain ⟨line,within,here⟩ := List.mem_flatMap.mp member
  rcases List.mem_append.mp here with inside | last
  · exact noNul line within inside
  · exact absurd (List.mem_singleton.mp last) (by decide)

/-! ## Markers -/

theorem skipName_iff {before : Char} {str : Str} : skipName before str = "====".toList ↔
    ∃ name, str = name ++ "====".toList ∧ (before :: name).getLast? = some ' ' ∧ ¬ [' ','='] <:+: before :: name := by
  induction str generalizing before with
  | nil => simp [skipName]
  | cons c cs ih =>
    by_cases stop : before = ' ' ∧ c = '='
    · obtain ⟨rfl,rfl⟩ := stop
      rw [skipName,if_pos ⟨rfl,rfl⟩]
      constructor
      · intro same
        exact ⟨[],by simpa using same,rfl,fun inside => absurd inside.length_le (by decide)⟩
      · rintro ⟨name,split,_,apart⟩
        cases name with
        | nil => simpa using split
        | cons d name =>
          cases (List.cons.inj split).1
          exact absurd ⟨[],name,rfl⟩ apart
    · rw [skipName,if_neg stop,ih]
      constructor
      · rintro ⟨name,rfl,last,apart⟩
        refine ⟨c :: name,rfl,by simpa using last,?_⟩
        intro inside
        rcases List.infix_cons_iff.mp inside with start | later
        · obtain ⟨rest,pair⟩ := start
          simp only [List.cons_append,List.nil_append,List.cons.injEq] at pair
          exact stop ⟨pair.1.symm,pair.2.1.symm⟩
        · exact apart later
      · rintro ⟨name,split,last,apart⟩
        cases name with
        | nil =>
          cases (List.cons.inj split).1
          exact absurd ⟨by simpa using last,rfl⟩ stop
        | cons d name =>
          obtain ⟨rfl,rest⟩ := List.cons.inj split
          exact ⟨name,rest,by simpa using last,fun inside => apart (List.infix_cons inside)⟩

/-- A line is the marker of a test where four equal signs are behind the first
    blank that one follows and end the line. -/
theorem ismarkerRegress_iff {str : Str} : ismarkerRegress str = true ↔
    ∃ name, str = "==== ".toList ++ (name ++ "====".toList) ∧ (' ' :: name).getLast? = some ' ' ∧
      ¬ [' ','='] <:+: ' ' :: name := by
  simp only [ismarkerRegress,Bool.and_eq_true,decide_eq_true_eq,skipName_iff,List.isPrefixOf_iff_prefix]
  constructor
  · rintro ⟨⟨rest,rfl⟩,name,split,last,apart⟩
    have rest' : rest = name ++ "====".toList := by simpa using split
    exact ⟨name,by rw [rest'],last,apart⟩
  · rintro ⟨name,rfl,last,apart⟩
    exact ⟨List.prefix_append _ _,name,rfl,last,apart⟩

/-! ## The pass over a log -/

/-- Segments as they are printed, with an empty line before each but a first one. -/
def printed (first : Bool) : List (List Str) → Str
  | [] => []
  | s :: ss => (if first then [] else ['\n']) ++ unlines s ++ printed false ss

/-- Texts with an empty line between any two of them. -/
theorem intercalate_breaks (s : Str) (ss : List Str) : ['\n'].intercalate (s :: ss) = s ++ ss.flatMap ('\n' :: ·) := by
  induction ss generalizing s with
  | nil => simp
  | cons t ss ih =>
    rw [List.intercalate_cons_cons,ih t]
    simp

theorem printed_later (ss : List (List Str)) : printed false ss = (ss.map unlines).flatMap ('\n' :: ·) := by
  induction ss with
  | nil => rfl
  | cons s ss ih => simp [printed,ih]

theorem printed_first (ss : List (List Str)) : printed true ss = ['\n'].intercalate (ss.map unlines) := by
  cases ss with
  | nil => rfl
  | cons s ss => simp [printed,printed_later,intercalate_breaks]

/-- The lines from which targets are extracted. -/
def traced (xtrace : Bool) (log : List Str) : List Str := if xtrace then log.dropWhile isxtrace else log

theorem unlines_append (log : List Str) (line : Str) : unlines (log ++ [line]) = unlines log ++ line ++ ['\n'] := by
  simp [unlines]

/-- What was collected, with a line added to it. -/
theorem collect (scratch : List Str) (line : Str) :
    (if ismarker line then [] else unlines scratch) ++ line ++ ['\n'] =
      unlines ((if ismarker line then [] else scratch) ++ [line]) := by
  rw [unlines_append]
  split <;> rfl

theorem segments_length {α : Type} (marker hit : α → Bool) (scratch xs : List α) :
    (segments marker hit scratch xs).length = xs.countP hit := by
  induction xs generalizing scratch with
  | nil => rfl
  | cons x xs ih =>
    by_cases found : hit x = true
    · simp [segments,found,ih]
    · simp [segments,found,ih]

/-- A line behind the leading traces: what is collected, printed and counted. -/
theorem parseLines_line {flags : Flags} {text chars rest : Str} {xtrace : Bool} {scratch out : Str} {nfound : Nat}
    (read : getline text = some (chars,rest)) (counts : ¬ (xtrace && isxtrace (cstring chars)) = true) :
    parseLines flags text xtrace scratch out nfound =
      let scratch := (if ismarker (cstring chars) then [] else scratch) ++ cstring chars ++ ['\n']
      if matching flags.toOutcomes (cstring chars) then
        if flags.peek then (nfound+1,out)
        else parseLines flags rest false []
          (out ++ (if nfound = 0 ∧ flags.newline = false then [] else ['\n']) ++ cstring scratch) (nfound+1)
      else parseLines flags rest false scratch out nfound := by
  rw [parseLines]
  split
  · next ended => rw [read] at ended; cases ended
  · next read' =>
    rw [read] at read'
    cases read'
    rw [if_neg counts]

/-- A leading trace is passed over. -/
theorem parseLines_trace {flags : Flags} {text chars rest : Str} {scratch out : Str} {nfound : Nat}
    (read : getline text = some (chars,rest)) (plus : isxtrace (cstring chars) = true) :
    parseLines flags text true scratch out nfound = parseLines flags rest true scratch out nfound := by
  rw [parseLines]
  split
  · next ended => rw [read] at ended; cases ended
  · next read' =>
    rw [read] at read'
    cases read'
    rw [if_pos (by simp [plus])]

theorem parseLines_end {flags : Flags} {text : Str} {xtrace : Bool} {scratch out : Str} {nfound : Nat}
    (read : getline text = none) : parseLines flags text xtrace scratch out nfound = (nfound,out) := by
  rw [parseLines]
  split
  · rfl
  · next more => rw [read] at more; cases more

/-- The lines behind the leading traces begin with a line that is none of them. -/
theorem traced_line {xtrace : Bool} {line : Str} {log : List Str} (counts : ¬ (xtrace && isxtrace line) = true) :
    traced xtrace (line :: log) = line :: traced false log := by
  cases xtrace with
  | false => rfl
  | true =>
    have other : ¬ isxtrace line = true := by simpa using counts
    simp only [traced,↓reduceIte,List.dropWhile_cons_of_neg other]
    rfl

/-- The segments of the lines are printed behind what was printed before. -/
theorem parseLines_segments (flags : Flags) (whole : flags.peek = false) (text : Str) (xtrace : Bool)
    (scratch : List Str) (noNul : ∀ line ∈ scratch, nul ∉ line) (out : Str) (nfound : Nat) :
    parseLines flags text xtrace (unlines scratch) out nfound =
      let found := segments ismarker (matching flags.toOutcomes) scratch (traced xtrace (lines text))
      (nfound+found.length,out ++ printed (nfound = 0 ∧ flags.newline = false) found) := by
  induction size : text.length using Nat.strongRecOn generalizing text xtrace scratch out nfound with
  | _ n ih =>
    cases read : getline text with
    | none =>
      rw [parseLines_end read,lines_end read]
      cases xtrace <;> simp [traced,segments,printed]
    | some found =>
      obtain ⟨chars,rest⟩ := found
      have shorter : rest.length < n := size ▸ getline_length read
      rw [lines_next read]
      by_cases skipped : (xtrace && isxtrace (cstring chars)) = true
      · obtain ⟨rfl,plus⟩ := Bool.and_eq_true_iff.mp skipped
        rw [parseLines_trace read plus,ih rest.length shorter rest true scratch noNul out nfound rfl]
        simp only [traced,↓reduceIte,List.dropWhile_cons_of_pos plus]
      · have more : ∀ l ∈ (if ismarker (cstring chars) then [] else scratch) ++ [cstring chars], nul ∉ l := by
          intro l member
          rcases List.mem_append.mp member with old | new
          · split at old
            · cases old
            · exact noNul l old
          · rw [List.mem_singleton.mp new]
            exact cstring_noNul chars
        rw [parseLines_line read skipped,traced_line skipped,collect,segments]
        dsimp only
        by_cases hit : matching flags.toOutcomes (cstring chars) = true
        · have next := ih rest.length shorter rest false [] (by simp)
            (out ++ (if nfound = 0 ∧ flags.newline = false then [] else ['\n']) ++
              unlines ((if ismarker (cstring chars) then [] else scratch) ++ [cstring chars])) (nfound+1) rfl
          rw [if_pos hit,if_pos hit,unlines_whole more]
          simp only [whole,Bool.false_eq_true,↓reduceIte]
          apply Eq.trans next
          simp only [List.length_cons,printed,Nat.add_eq_zero_iff,Nat.one_ne_zero,and_false,false_and,decide_false,
            decide_eq_true_eq,List.append_assoc,Nat.add_assoc,Nat.add_comm 1]
        · rw [if_neg hit,if_neg hit]
          exact ih rest.length shorter rest false _ more out nfound rfl

/-- Peeking stops at the first target. -/
theorem parseLines_peek (flags : Flags) (peek : flags.peek = true) (text : Str) (xtrace : Bool) (scratch out : Str)
    (nfound : Nat) :
    (parseLines flags text xtrace scratch out nfound).1 =
      nfound+min 1 ((traced xtrace (lines text)).countP (matching flags.toOutcomes)) := by
  induction size : text.length using Nat.strongRecOn generalizing text xtrace scratch out nfound with
  | _ n ih =>
    cases read : getline text with
    | none =>
      rw [parseLines_end read,lines_end read]
      cases xtrace <;> simp [traced]
    | some found =>
      obtain ⟨chars,rest⟩ := found
      have shorter : rest.length < n := size ▸ getline_length read
      rw [lines_next read]
      by_cases skipped : (xtrace && isxtrace (cstring chars)) = true
      · obtain ⟨rfl,plus⟩ := Bool.and_eq_true_iff.mp skipped
        rw [parseLines_trace read plus,ih rest.length shorter rest true scratch out nfound rfl]
        simp only [traced,↓reduceIte,List.dropWhile_cons_of_pos plus]
      · rw [parseLines_line read skipped,traced_line skipped]
        by_cases hit : matching flags.toOutcomes (cstring chars) = true
        · simp [hit,peek]
        · simp only [hit,Bool.false_eq_true,↓reduceIte]
          rw [ih rest.length shorter rest false _ out nfound rfl,List.countP_cons_of_neg (by simpa using hit)]

/-- The targets with the outcomes asked for are counted and printed, each from the
    last marker or from behind the target before it, and an empty line between
    any two; peeking tells whether there are any. -/
theorem regressLogParse_targets (text out : Str) (outcomes : Outcomes) :
    let log := (lines text).dropWhile isxtrace
    let found := hits (matching outcomes) log
    let first := start ismarker (matching outcomes) log
    regressLogParse (some text) out { outcomes with } = ((log.countP (matching outcomes) : Int),
      out ++ ['\n'].intercalate (found.map fun last => unlines (segment log (first last) last))) ∧
    regressLogPeek (some text) { outcomes with } = min 1 (log.countP (matching outcomes)) ∧
    (∀ last ∈ found, first last ≤ last) ∧ found.Pairwise fun last last' => last < first last' := by
  dsimp only
  refine ⟨?_,?_,fun last _ => start_le ismarker (matching outcomes) _ last,hits_apart ismarker (matching outcomes) _⟩
  · have run : parseLines { outcomes with } text true [] out 0 = _ :=
      parseLines_segments { outcomes with } rfl text true [] (by simp) out 0
    simp only [regressLogParse,regressLogParseImpl,run,traced,↓reduceIte,segments_length]
    simp only [Nat.zero_add,and_self,decide_true,printed_first,segments_eq,List.map_map,Function.comp_def]
  · have run := parseLines_peek { outcomes with peek := true } rfl text true [] [] 0
    simp only [regressLogPeek,regressLogParseImpl,run,traced,↓reduceIte,Nat.zero_add]

end Robsd.RegressLog
