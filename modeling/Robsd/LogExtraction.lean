import Robsd.LogTrim
import Robsd.RegressRuns

/-!
Where targets extracted from several logs, or in two passes over one log, are put
together: the main function of robsd-regress-log and `parse_run_log` of
regress-html.c. An empty line is put in front before it is known whether
anything follows.
-/
namespace Robsd.LogExtraction
open Robsd.Strings
open Robsd.RegressLog
open Robsd.RegressRuns (RunStatus isRunStatusFailure)
open Robsd.Segments
open Robsd.LogTrim

/-! ## robsd-regress-log -/

/-- `flags` and `doprint` of the main function. -/
structure Options extends Outcomes where
  doprint : Bool

/-- One turn of the loop over the options. -/
def option (o : Options) : Char → Option Options
  | 'F' => some { o with failed := true }
  | 'P' => some { o with xpassed := true }
  | 'S' => some { o with skipped := true }
  | 'X' => some { o with xfailed := true }
  | 'n' => some { o with doprint := false }
  | _ => none

/-- The options given, unless one is unknown. -/
def options (letters : List Char) : Option Options := letters.foldlM option ⟨⟨false,false,false,false⟩,true⟩

/-- Whether any outcome is asked for. -/
def Outcomes.any (flags : Outcomes) : Bool := flags.failed || flags.skipped || flags.xfailed || flags.xpassed

/-- `buffer_pop`. -/
def bufferPop (bf : Str) (n : Nat) : Str := bf.take (bf.length-n)

/-- The variables of the loop over the paths. -/
structure Progress where
  bf : Str
  n : Nat
  error : Bool

/-- One turn of the loop, on the content of the file if it can be read. -/
def parsePath (flags : Outcomes) (p : Progress) (file : Option Str) : Progress :=
  let parsed := regressLogParse file (if p.n > 0 then p.bf ++ ['\n'] else p.bf) { flags with }
  if parsed.1 = -1 then { p with bf := parsed.2, error := true }
  else if parsed.1 = 0 then { p with bf := if p.n > 0 then bufferPop parsed.2 1 else parsed.2 }
  else { p with bf := parsed.2, n := p.n+1 }

/-- `usage`. -/
def usage : Nat × Str := (1,[])

/-- The exit status of robsd-regress-log and its output, given the options and the
    contents of the files that can be read. -/
def robsdRegressLog (letters : List Char) (files : List (Option Str)) : Nat × Str :=
  match options letters with
  | none => usage
  | some o =>
    if files = [] ∨ Outcomes.any o.toOutcomes = false then usage
    else
      let p := files.foldl (parsePath o.toOutcomes) ⟨[],0,false⟩
      let out := if p.error = false ∧ p.n > 0 ∧ o.doprint then cstring (p.bf ++ [nul]) else []
      (if p.error then 2 else if p.n = 0 then 1 else 0,out)

/-! ## parse_run_log -/

/-- The outcomes of the first pass. -/
def failures : Outcomes := { failed := true, skipped := false, xfailed := true, xpassed := true }

/-- The outcome of the second pass. -/
def skips : Outcomes := { failed := false, skipped := true, xfailed := false, xpassed := false }

/-- The two passes of `parse_run_log`: the number of failures, that of skipped targets
    and the buffer. -/
def passes (file : Option Str) : Int × Int × Str :=
  let fail := regressLogParse file [] { failures with }
  let skip := regressLogParse file fail.2 { skips with newline := fail.1 > 0 }
  (fail.1,skip.1,skip.2)

/-- What `parse_run_log` copies, unless the log cannot be parsed. -/
def runLog (file : Option Str) (status : RunStatus) : Option Str :=
  let (nfail,nskip,bf) := passes file
  if nfail > 0 then some bf
  else if isRunStatusFailure status = false ∧ nskip > 0 then some bf
  else
    let trim := regressLogTrim file bf
    if trim.1 > 0 then some trim.2 else none

/-! ## Targets -/

/-- The targets of a log with one of the outcomes, as they are extracted. -/
def targets (flags : Outcomes) (text : Str) : List Str :=
  (segments ismarker (matching flags) [] ((lines text).dropWhile isxtrace)).map unlines

/-- What is extracted from a log. -/
def extraction (flags : Outcomes) (text : Str) : Str := (regressLogParse (some text) [] { flags with }).2

/-- A log contains a line with one of the outcomes, behind the traces it starts with. -/
def Contains (flags : Outcomes) (text : Str) : Prop :=
  ∃ line ∈ (lines text).dropWhile isxtrace, matching flags line = true

instance (flags : Outcomes) (text : Str) : Decidable (Contains flags text) :=
  inferInstanceAs (Decidable (∃ line ∈ (lines text).dropWhile isxtrace, matching flags line = true))

theorem regressLogParse_output {flags : Flags} (whole : flags.peek = false) (text out : Str) :
    regressLogParse (some text) out flags = (((targets flags.toOutcomes text).length : Int),
      out ++ if flags.newline then (targets flags.toOutcomes text).flatMap ('\n' :: ·)
        else ['\n'].intercalate (targets flags.toOutcomes text)) := by
  have run := parseLines_segments flags whole text true [] (by simp) out 0
  simp only [unlines,List.flatMap_nil] at run
  simp only [regressLogParse,regressLogParseImpl,run,traced,↓reduceIte,Nat.zero_add,targets,List.length_map]
  by_cases newline : flags.newline = true
  · simp [newline,printed_later]
  · simp [newline,printed_first]

theorem extraction_eq (flags : Outcomes) (text : Str) :
    extraction flags text = ['\n'].intercalate (targets flags text) := by
  rw [extraction,regressLogParse_output rfl]
  rfl

/-- What is extracted comes behind what is in the buffer. -/
theorem regressLogParse_append (flags : Outcomes) (text out : Str) : regressLogParse (some text) out { flags with } =
    (((targets flags text).length : Int),out ++ extraction flags text) := by
  rw [extraction_eq,regressLogParse_output rfl]
  rfl

theorem targets_nil_iff {flags : Outcomes} {text : Str} : targets flags text = [] ↔ ¬ Contains flags text := by
  rw [← List.length_eq_zero_iff,targets,List.length_map,segments_length,List.countP_eq_zero,Contains]
  simp

/-- A target is made of complete lines. -/
theorem targets_lines {flags : Outcomes} {text target : Str} (member : target ∈ targets flags text) :
    ∃ log, log ≠ [] ∧ target = unlines log ∧ nul ∉ target := by
  obtain ⟨log,inside,rfl⟩ := List.mem_map.mp member
  obtain ⟨line,here,_⟩ := ReportLogs.segments_hit _ _ _ _ log inside
  refine ⟨log,List.ne_nil_of_mem here,rfl,?_⟩
  intro ended
  have noNul : ∀ l ∈ log, nul ∉ l := by
    intro l within
    have read := segments_subset ismarker (matching flags) [] _ log inside within
    exact (lines_plain text l ((List.dropWhile_suffix _).subset read)).2
  rw [← unlines_whole noNul] at ended
  exact cstring_noNul _ ended

theorem breaks_noNul {texts : List Str} (noNul : ∀ text ∈ texts, nul ∉ text) : nul ∉ ['\n'].intercalate texts := by
  cases texts with
  | nil => exact List.not_mem_nil
  | cons s ss =>
    rw [intercalate_breaks]
    intro member
    rcases List.mem_append.mp member with first | later
    · exact noNul s List.mem_cons_self first
    · obtain ⟨t,behind,inside⟩ := List.mem_flatMap.mp later
      rcases List.mem_cons.mp inside with impossible | within
      · cases impossible
      · exact noNul t (List.mem_cons_of_mem s behind) within

theorem extraction_noNul (flags : Outcomes) (text : Str) : nul ∉ extraction flags text := by
  rw [extraction_eq]
  apply breaks_noNul
  intro target member
  obtain ⟨_,_,_,noNul⟩ := targets_lines member
  exact noNul

/-- Lines with empty lines in between are lines. -/
theorem breaks_lines {logs : List (List Str)} (some : logs ≠ []) (each : ∀ log ∈ logs, log ≠ []) :
    ∃ log, log ≠ [] ∧ ['\n'].intercalate (logs.map unlines) = unlines log := by
  obtain ⟨first,later,rfl⟩ := List.exists_cons_of_ne_nil some
  refine ⟨first ++ later.flatMap ([] :: ·),?_,?_⟩
  · exact List.append_ne_nil_of_left_ne_nil (each first List.mem_cons_self) _
  · rw [List.map_cons,intercalate_breaks]
    simp [unlines,List.flatMap_append,List.flatMap_map,List.flatMap_assoc]

/-- What is extracted from a log that contains an outcome is made of complete lines. -/
theorem extraction_lines {flags : Outcomes} {text : Str} (contains : Contains flags text) :
    ∃ log, log ≠ [] ∧ extraction flags text = unlines log := by
  rw [extraction_eq,targets]
  refine breaks_lines ?_ ?_
  · intro none
    refine targets_nil_iff.mp ?_ contains
    rw [targets,none]
    rfl
  · intro log inside
    obtain ⟨line,here,_⟩ := ReportLogs.segments_hit _ _ _ _ log inside
    exact List.ne_nil_of_mem here

/-! ## The loop over the paths -/

/-- What was extracted from the logs so far. -/
structure Collected (found : List Str) (p : Progress) : Prop where
  bf : p.bf = ['\n'].intercalate found
  n : p.n = found.length
  error : p.error = false

theorem intercalate_concat {found : List Str} (some : found ≠ []) (text : Str) :
    ['\n'].intercalate (found ++ [text]) = ['\n'].intercalate found ++ '\n' :: text := by
  obtain ⟨first,later,rfl⟩ := List.exists_cons_of_ne_nil some
  rw [List.cons_append,intercalate_breaks,intercalate_breaks]
  simp

/-- The separator is taken back where nothing follows it. -/
theorem bufferPop_break (bf : Str) : bufferPop (bf ++ ['\n']) 1 = bf := by
  simp [bufferPop]

theorem parsePath_collected {flags : Outcomes} {found : List Str} {p : Progress}
    (collected : Collected found p) (text : Str) :
    Collected (found ++ if Contains flags text then [extraction flags text] else [])
      (parsePath flags p (some text)) := by
  obtain ⟨bf,n,error⟩ := collected
  have nonneg : ¬ ((targets flags text).length : Int) = -1 := by omega
  simp only [parsePath,regressLogParse_append,nonneg,↓reduceIte]
  by_cases contains : Contains flags text
  · have some : ¬ ((targets flags text).length : Int) = 0 := by
      intro none
      exact targets_nil_iff.mp (List.length_eq_zero_iff.mp (by omega)) contains
    rw [if_neg some,if_pos contains]
    refine ⟨?_,by simp [n],error⟩
    by_cases first : found = []
    · subst first
      simp [bf,n]
    · have later : p.n > 0 := n ▸ List.length_pos_iff.mpr first
      rw [intercalate_concat first,if_pos later,bf,List.append_assoc]
      rfl
  · have none := targets_nil_iff.mpr contains
    have nothing : extraction flags text = [] := by rw [extraction_eq,none]; rfl
    rw [if_neg contains,none,nothing,List.append_nil]
    refine ⟨?_,n,error⟩
    by_cases later : p.n > 0
    · simp [later,bufferPop_break,bf]
    · simp [later,bf]

theorem collect_logs (flags : Outcomes) (logs : List Str) {found : List Str} {p : Progress}
    (collected : Collected found p) :
    Collected (found ++ (logs.filter (Contains flags)).map (extraction flags))
      ((logs.map some).foldl (parsePath flags) p) := by
  induction logs generalizing found p with
  | nil => simpa using collected
  | cons log logs ih =>
    have next := ih (@parsePath_collected flags found p collected log)
    rw [List.map_cons,List.foldl_cons]
    by_cases contains : Contains flags log
    · have kept : (log :: logs).filter (Contains flags) = log :: logs.filter (Contains flags) :=
        List.filter_cons_of_pos (by simpa using contains)
      rw [if_pos contains,List.append_assoc] at next
      rwa [kept]
    · have passed : (log :: logs).filter (Contains flags) = logs.filter (Contains flags) :=
        List.filter_cons_of_neg (by simpa using contains)
      rw [if_neg contains,List.append_nil] at next
      rwa [passed]

theorem contains_any {flags : Outcomes} {text : Str} (contains : Contains flags text) : Outcomes.any flags = true := by
  obtain ⟨line,_,hit⟩ := contains
  by_contra none
  simp only [Outcomes.any,Bool.not_eq_true,Bool.or_eq_false_iff] at none
  obtain ⟨⟨⟨failed,skipped⟩,xfailed⟩,xpassed⟩ := none
  simp [matching,failed,skipped,xfailed,xpassed] at hit

/-- robsd-regress-log prints what is extracted from the logs that contain an outcome. -/
theorem robsdRegressLog_found {letters : List Char} {o : Options} (known : options letters = some o) (logs : List Str) :
    let found := logs.filter (Contains o.toOutcomes)
    robsdRegressLog letters (logs.map some) = (if found = [] then 1 else 0,
      if o.doprint then ['\n'].intercalate (found.map (extraction o.toOutcomes)) else []) := by
  intro found
  simp only [robsdRegressLog,known]
  by_cases missing : logs.map some = [] ∨ Outcomes.any o.toOutcomes = false
  · have none : found = [] := by
      rcases missing with empty | unasked
      · cases List.map_eq_nil_iff.mp empty
        rfl
      · apply List.filter_eq_nil_iff.mpr
        intro log _ contains
        rw [contains_any (of_decide_eq_true contains)] at unasked
        cases unasked
    rw [if_pos missing,none]
    cases o.doprint <;> rfl
  · rw [if_neg missing]
    obtain ⟨bf,n,error⟩ := @collect_logs o.toOutcomes logs [] ⟨[],0,false⟩ ⟨rfl,rfl,rfl⟩
    rw [List.nil_append] at bf n
    have noNul : nul ∉ ['\n'].intercalate (found.map (extraction o.toOutcomes)) := by
      apply breaks_noNul
      intro text member
      obtain ⟨log,_,rfl⟩ := List.mem_map.mp member
      exact extraction_noNul _ _
    have shown : cstring (['\n'].intercalate (found.map (extraction o.toOutcomes)) ++ [nul]) =
        ['\n'].intercalate (found.map (extraction o.toOutcomes)) := by
      rw [cstring,List.takeWhile_append_of_pos]
      · simp
      · intro c member
        exact decide_eq_true fun same => noNul (same ▸ member)
    rw [List.length_map] at n
    simp only [bf,n,error]
    rw [shown]
    by_cases none : found = []
    · have nothing : logs.filter (Contains o.toOutcomes) = [] := none
      simp [none,nothing]
    · have some : (logs.filter (Contains o.toOutcomes)).length > 0 := List.length_pos_iff.mpr none
      simp [none,some,Nat.ne_of_gt some]

/-! ## The two passes -/

theorem passes_targets (text : Str) : passes (some text) = (((targets failures text).length : Int),
    ((targets skips text).length : Int),['\n'].intercalate (targets failures text ++ targets skips text)) := by
  have first : regressLogParse (some text) [] { failures with } = _ := regressLogParse_append failures text []
  simp only [passes,first,List.nil_append,extraction_eq]
  rw [regressLogParse_output rfl]
  cases shape : targets failures text with
  | nil => simp
  | cons target others => simp [intercalate_breaks]

/-- The number of targets is positive where there are any. -/
theorem targets_pos_iff {flags : Outcomes} {text : Str} :
    ((targets flags text).length : Int) > 0 ↔ Contains flags text := by
  by_cases contains : Contains flags text
  · have some := mt targets_nil_iff.mp (not_not_intro contains)
    have pos := List.length_pos_iff.mpr some
    exact iff_of_true (by omega) contains
  · have none := targets_nil_iff.mpr contains
    rw [none]
    exact iff_of_false (by simp) contains

/-- The log is copied as a whole, up to its traces, where no targets are to be shown. -/
theorem runLog_copied (text : Str) (status : RunStatus) :
    runLog (some text) status = if Contains failures text ∨ isRunStatusFailure status = false ∧ Contains skips text
      then some (['\n'].intercalate (targets failures text ++ targets skips text))
      else some (regressLogTrim (some text) []).2 := by
  simp only [runLog,passes_targets,targets_pos_iff]
  by_cases failed : Contains failures text
  · rw [if_pos failed,if_pos (.inl failed)]
  · by_cases skipped : isRunStatusFailure status = false ∧ Contains skips text
    · rw [if_neg failed,if_pos skipped,if_pos (.inr skipped)]
    · rw [if_neg failed,if_neg skipped,if_neg (not_or_intro failed skipped)]
      rfl

/-- What is extracted from several logs is printed with one empty line in between, those
    logs left out in which no outcome is found; the failures and then the skipped
    targets of a single log are put together in the same way. -/
theorem extractions_combined {letters : List Char} {o : Options} (known : options letters = some o) (logs : List Str)
    (text : Str) (status : RunStatus) :
    let found := logs.filter (Contains o.toOutcomes)
    (robsdRegressLog letters (logs.map some) = (if found = [] then 1 else 0,
        if o.doprint then ['\n'].intercalate (found.map (extraction o.toOutcomes)) else []) ∧
      ∀ log ∈ found, ∃ ls, ls ≠ [] ∧ extraction o.toOutcomes log = unlines ls) ∧
    (passes (some text)).2.2 = ['\n'].intercalate (targets failures text ++ targets skips text) ∧
    (runLog (some text) status = if Contains failures text ∨ isRunStatusFailure status = false ∧ Contains skips text
      then some (['\n'].intercalate (targets failures text ++ targets skips text))
      else some (regressLogTrim (some text) []).2) ∧
    ∀ target ∈ targets failures text ++ targets skips text, ∃ ls, ls ≠ [] ∧ target = unlines ls := by
  intro found
  refine ⟨⟨robsdRegressLog_found known logs,?_⟩,?_,?_,?_⟩
  · intro log member
    exact extraction_lines (of_decide_eq_true (List.mem_filter.mp member).2)
  · rw [passes_targets]
  · exact runLog_copied text status
  · intro target member
    rcases List.mem_append.mp member with failed | skipped
    · obtain ⟨ls,nonempty,shape,_⟩ := targets_lines failed
      exact ⟨ls,nonempty,shape⟩
    · obtain ⟨ls,nonempty,shape,_⟩ := targets_lines skipped
      exact ⟨ls,nonempty,shape⟩

/-- Two logs with an outcome each and an empty one. -/
def sampleLogs : List Str :=
  [unlines ["==== test ====".toList,"FAILED".toList],unlines ["==== skip ====".toList,"SKIPPED".toList],[]]

theorem extractions_combined_sample :
    robsdRegressLog "FS".toList (sampleLogs.map some) =
      (if sampleLogs.filter (Contains ⟨true,true,false,false⟩) = [] then 1 else 0,
      ['\n'].intercalate ((sampleLogs.filter (Contains ⟨true,true,false,false⟩)).map
        (extraction ⟨true,true,false,false⟩))) :=
  (@extractions_combined "FS".toList ⟨⟨true,true,false,false⟩,true⟩ rfl sampleLogs [] .pass).1.1

end Robsd.LogExtraction
