import Robsd.Report

/-!
What a failed step shows in the report. The section of a step has text from its own
log unless the step is named cvs, whose section has the logs of changes in its
place, whether it failed or not.
-/
namespace Robsd.ReportLogs
open Robsd.Strings
open Robsd.Modes
open Robsd.ConfigLayout (intMax)
open Robsd.ConfigLexer (i32)
open Robsd.RegressLog
open Robsd.RegressRuns (below)
open Robsd.Segments
open Robsd.Steps (Step)
open Robsd.Report

/-! ## The tail of a log -/

/-- Text with something other than line breaks in it. -/
def Nonblank (text : Str) : Prop := ∃ c ∈ text, c ≠ '\n'

/-- A round of `last_lines`. -/
theorem lastLinesLoop_succ (n : Nat) (ahead : Str) :
    lastLinesLoop (n+1) ahead =
      if (ahead.rdropWhile (· = '\n')).rdropWhile (· ≠ '\n') = [] then []
      else lastLinesLoop n ((ahead.rdropWhile (· = '\n')).rdropWhile (· ≠ '\n')) := rfl

theorem lastLinesLoop_ahead (n : Nat) (ahead : Str) : lastLinesLoop n ahead <+: ahead := by
  induction n generalizing ahead with
  | zero => exact List.prefix_rfl
  | succ n ih =>
    rw [lastLinesLoop_succ]
    split
    · exact List.nil_prefix
    · exact (ih _).trans ((List.rdropWhile_prefix _ _).trans (List.rdropWhile_prefix _ _))

/-- A round takes a line and the line breaks behind it. -/
theorem round_line {ahead : Str} (nonblank : Nonblank ahead) : ∃ line breaks,
    ahead = (ahead.rdropWhile (· = '\n')).rdropWhile (· ≠ '\n') ++ (line ++ breaks) ∧
      line ≠ [] ∧ '\n' ∉ line ∧ ∀ c ∈ breaks, c = '\n' := by
  have remains : ahead.rdropWhile (· = '\n') ≠ [] := by
    intro blank
    obtain ⟨c,member,other⟩ := nonblank
    exact other (of_decide_eq_true (List.rdropWhile_eq_nil_iff.mp blank c member))
  refine ⟨(ahead.rdropWhile (· = '\n')).rtakeWhile (· ≠ '\n'),ahead.rtakeWhile (· = '\n'),?_,?_,?_,?_⟩
  · rw [← List.append_assoc,List.rdropWhile_append_rtakeWhile,List.rdropWhile_append_rtakeWhile]
  · have last := List.rdropWhile_last_not (· = '\n') ahead remains
    intro none
    exact List.rtakeWhile_eq_nil_iff.mp none remains (decide_eq_true fun same => last (decide_eq_true same))
  · intro member
    have other := List.mem_rtakeWhile_imp member
    exact of_decide_eq_true other rfl
  · intro c member
    have same := List.mem_rtakeWhile_imp member
    exact of_decide_eq_true same

/-- The tail of a log has something in it if the log has. -/
theorem lastLines_nonblank {text : Str} (nonblank : Nonblank text) (n : Nat) : Nonblank (lastLines text (n+1)) := by
  obtain ⟨line,breaks,whole,something,single,_⟩ := round_line nonblank
  obtain ⟨c,member⟩ := List.exists_mem_of_ne_nil _ something
  have ahead : lastLinesLoop (n+1) text <+: (text.rdropWhile (· = '\n')).rdropWhile (· ≠ '\n') := by
    rw [lastLinesLoop_succ]
    split
    · exact List.nil_prefix
    · exact lastLinesLoop_ahead n _
  refine ⟨c,?_,fun same => single (same ▸ member)⟩
  rw [lastLines]
  generalize lastLinesLoop (n+1) text = cut at ahead ⊢
  obtain ⟨more,front⟩ := ahead
  rw [whole,← front]
  simp [member]

/-! ## Extracted targets -/

theorem strstr_mem {str needle : Str} (found : strstr str needle = true) : ∀ c ∈ needle, c ∈ str := by
  obtain ⟨tail,suffix,start⟩ := List.any_eq_true.mp found
  intro c member
  exact ((List.mem_tails _ _).mp suffix).subset ((List.isPrefixOf_iff_prefix.mp start).subset member)

/-- A line that tells an outcome has something in it. -/
theorem matching_nonblank {flags : Outcomes} {line : Str} (hit : matching flags line = true) : Nonblank line := by
  have letter : 'D' ∈ line ∨ 'P' ∈ line := by
    simp only [matching,isskipped,isfailed,isxfailed,isxpassed,Bool.or_eq_true,Bool.and_eq_true] at hit
    rcases hit with ((⟨_,found | found⟩ | ⟨_,found⟩) | ⟨_,found⟩) | ⟨_,found⟩
    · exact .inl (strstr_mem found 'D' (by decide))
    · exact .inl (strstr_mem found 'D' (by decide))
    · exact .inl (strstr_mem found 'D' (by decide))
    · exact .inr (strstr_mem found 'P' (by decide))
    · exact .inr (strstr_mem found 'P' (by decide))
  rcases letter with member | member
  · exact ⟨'D',member,by decide⟩
  · exact ⟨'P',member,by decide⟩

theorem segments_hit {α : Type} (marker hit : α → Bool) (scratch xs : List α) :
    ∀ s ∈ segments marker hit scratch xs, ∃ x ∈ s, hit x = true := by
  induction xs generalizing scratch with
  | nil => exact fun _ impossible => by cases impossible
  | cons x xs ih =>
    rw [segments]
    split
    · next found =>
      intro s member
      rcases List.mem_cons.mp member with rfl | later
      · exact ⟨x,by simp,found⟩
      · exact ih [] s later
    · exact ih _

/-- Targets that are extracted have something in them. -/
theorem regressLogParse_nonblank {text : Str} {flags : Flags} (whole : flags.peek = false)
    (found : (regressLogParse (some text) [] flags).1 > 0) : Nonblank (regressLogParse (some text) [] flags).2 := by
  have run := parseLines_segments flags whole text true [] (by simp) [] 0
  simp only [unlines,List.flatMap_nil] at run
  simp only [regressLogParse,regressLogParseImpl,run,Nat.zero_add,List.nil_append] at found ⊢
  cases parts : segments ismarker (matching flags.toOutcomes) [] (traced true (lines text)) with
  | nil => rw [parts] at found; cases found
  | cons s ss =>
    obtain ⟨line,inside,hit⟩ := segments_hit ismarker (matching flags.toOutcomes) [] (traced true (lines text)) s
      (parts ▸ List.mem_cons_self)
    obtain ⟨c,member,other⟩ := matching_nonblank hit
    refine ⟨c,?_,other⟩
    have line : c ∈ unlines s := List.mem_flatMap.mpr ⟨line,inside,List.mem_append_left _ member⟩
    simp [printed,line]

/-! ## Sections -/

/-- The section shows a text from the log of its step. -/
def Shows (out : List Piece) (text : Str) : Prop := ⟨.stepLog,text⟩ ∈ out

/-- The targets with failures, and unless it is quiet with other outcomes, that are
    extracted from the log of a suite. -/
def blocks (r : Context) (st : Step) (log : Str) : Int × Str :=
  regressLogParse (some log) [] (regressLogFlags (isRegressQuiet r (st.string .name)))

/-- The text that is to be shown of a log. -/
def own (r : Context) (st : Step) (log : Str) : Str :=
  if r.mode = .robsdRegress ∧ (blocks r st log).1 > 0 then (blocks r st log).2 else lastLines log 10

/-- The step failed and left a log with something in it. -/
structure FailedWith (r : Context) (st : Step) (log : Str) : Prop where
  executed : st.integer .skip ≠ 1
  failed : st.integer .exit ≠ 0
  field : st.string .log ≠ []
  readable : r.read (below r.builddir (st.string .log)) = some log
  nonblank : Nonblank log

/-- What decides that the text is shown: targets are extracted, or the step is not
    named cvs and its tail can be printed with `%.*s`. -/
def Printable (r : Context) (st : Step) (log : Str) : Prop :=
  (r.mode = .robsdRegress ∧ (blocks r st log).1 > 0) ∨
    (st.string .name ≠ "cvs".toList ∧ nul ∉ lastLines log 10 ∧ (lastLines log 10).length < intMax)

theorem own_nonblank {r : Context} {st : Step} {log : Str} (failed : FailedWith r st log) :
    Nonblank (own r st log) := by
  unfold own
  split
  · next found => exact regressLogParse_nonblank rfl found.2
  · exact lastLines_nonblank failed.nonblank 9

theorem heading_origin {st : Step} : ∀ p ∈ heading st, p.origin = .report := by
  have one : ∀ text : Str, ∀ p ∈ bufferPrintf [said text], p.origin = .report := by
    intro text p member
    unfold bufferPrintf at member
    split at member
    · rw [List.mem_singleton.mp member]
      rfl
    · cases member
  intro p member
  simp only [heading,List.mem_append] at member
  rcases member with ((first | second) | third) | fourth
  · exact one _ p first
  · exact one _ p second
  · exact one _ p third
  · exact one _ p fourth

theorem formatFile_origin (r : Context) (origin : Origin) (path : Str) :
    ∀ p ∈ (formatFile r origin path).2, p.origin = origin ∨ p.origin = .report := by
  unfold formatFile
  cases r.read path with
  | none => exact fun _ impossible => by cases impossible
  | some text =>
    intro p member
    rcases List.mem_cons.mp member with rfl | ended
    · exact .inl rfl
    · rw [List.mem_singleton.mp ended]
      exact .inr rfl

theorem reportCvsFiles_origin (r : Context) (tmpdir : Str) (paths : List (Mode × Str)) (ncvs : Nat) :
    ∀ p ∈ (reportCvsFiles r tmpdir paths ncvs).2, p.origin = .changeLog ∨ p.origin = .report := by
  induction paths generalizing ncvs with
  | nil => exact fun _ impossible => by cases impossible
  | cons path paths ih =>
    obtain ⟨mode,filename⟩ := path
    have lead : ∀ p ∈ (if ncvs > 0 then [said ['\n']] else []), p.origin = .report := by
      intro p member
      split at member
      · rw [List.mem_singleton.mp member]
        rfl
      · cases member
    have file := formatFile_origin r .changeLog (below tmpdir filename)
    rw [reportCvsFiles]
    split
    · exact ih ncvs
    · split
      · exact ih ncvs
      · dsimp only
        split
        · intro p member
          rcases List.mem_append.mp member with ahead | inside
          · exact .inr (lead p ahead)
          · exact file p inside
        · intro p member
          simp only [List.mem_append] at member
          rcases member with (ahead | inside) | rest
          · exact .inr (lead p ahead)
          · exact file p inside
          · exact ih _ p rest

theorem reportCvsLog_origin (r : Context) : ∀ p ∈ (reportCvsLog r).2, p.origin = .changeLog ∨ p.origin = .report := by
  unfold reportCvsLog
  cases r.str _ with
  | none => exact fun _ impossible => by cases impossible
  | some tmpdir =>
    intro p member
    rcases List.mem_cons.mp member with rfl | inside
    · exact .inr rfl
    · exact reportCvsFiles_origin r tmpdir cvsPaths 0 p inside

/-- The section of a step named cvs shows nothing of its log. -/
theorem reportCvsLog_shows (r : Context) (text : Str) : ¬ Shows (reportCvsLog r).2 text := fun shows => by
  rcases reportCvsLog_origin r _ shows with impossible | impossible <;> cases impossible

theorem cstring_noNul_iff {text : Str} : cstring text = text ↔ nul ∉ text := by
  rw [cstring,List.takeWhile_eq_self_iff]
  constructor
  · intro all member
    have := all nul member
    simp at this
  · intro noNul c member
    apply decide_eq_true
    rintro rfl
    exact noNul member

/-- The tail of a log is printed as it is unless a NUL ends it or it is too long. -/
theorem reportTail_shows (text : Str) :
    Shows (reportTail text) (lastLines text 10) ↔
      nul ∉ lastLines text 10 ∧ (lastLines text 10).length < intMax := by
  generalize tail : lastLines text 10 = str
  have inside : Shows (reportTail text) str ↔
      precision (i32 str.length) str = str ∧ (precision (i32 str.length) str).length+1 ≤ intMax := by
    have breaks : ∀ p ∈ (if str ≠ [] ∧ str.getLast? ≠ some '\n' then [said ['\n']] else []), p.origin = .report := by
      intro p member
      split at member
      · rw [List.mem_singleton.mp member]
        rfl
      · cases member
    simp only [Shows,reportTail,tail,List.mem_append]
    rw [or_iff_left fun member => by cases breaks _ member]
    unfold bufferPrintf
    split
    · next fits =>
      simp only [written,List.flatMap_cons,List.flatMap_nil,said,List.append_nil,List.length_append,
        List.length_singleton] at fits
      simp only [List.mem_cons,said,Piece.mk.injEq,reduceCtorEq,false_and,false_or,List.not_mem_nil,or_false,true_and]
      exact ⟨fun same => ⟨same.symm,by omega⟩,fun both => both.1.symm⟩
    · next long =>
      simp only [written,List.flatMap_cons,List.flatMap_nil,said,List.append_nil,List.length_append,
        List.length_singleton] at long
      simp only [List.not_mem_nil,false_iff]
      intro both
      exact long (by omega)
  rw [inside]
  constructor
  · rintro ⟨same,fits⟩
    rw [same] at fits
    refine ⟨?_,fits⟩
    intro member
    rw [← same] at member
    exact cstring_noNul _ member
  · rintro ⟨noNul,fits⟩
    have small : i32 str.length = str.length :=
      ConfigLayout.i32_of_bounds (by omega) (by simp only [intMax] at fits; omega)
    have same : precision (i32 str.length) str = str := by
      rw [precision,small,if_neg (by omega),Int.toNat_natCast,List.take_length]
      exact cstring_noNul_iff.mpr noNul
    rw [same]
    exact ⟨rfl,fits⟩

section
variable {r : Context} {st : Step} {log : Str}

theorem stepGetLogPath_some (field : st.string .log ≠ []) :
    stepGetLogPath r st = some (below r.builddir (st.string .log)) :=
  if_neg field

theorem blocks_nonneg : 0 ≤ (blocks r st log).1 := Int.natCast_nonneg _

theorem regressReportStepLog_readable (failed : FailedWith r st log) :
    regressReportStepLog r st =
      if (blocks r st log).1 > 0 then (stepLogHandled,[said ['\n'],⟨.stepLog,(blocks r st log).2⟩])
      else (stepLogUnhandled,[]) := by
  simp only [regressReportStepLog,stepGetLogPath_some failed.field,failed.readable]
  change (if (blocks r st log).1 > 0 then _ else if (blocks r st log).1 < 0 then _ else _) = _
  rw [if_neg (Int.not_lt.mpr blocks_nonneg)]
  rfl

/-- Targets that are extracted are shown. -/
theorem reportStepLog_extracted (failed : FailedWith r st log) (regress : r.mode = .robsdRegress)
    (found : (blocks r st log).1 > 0) :
    reportStepLog r st = (0,[said ['\n'],⟨.stepLog,(blocks r st log).2⟩]) := by
  have rv : modeReportStepLog r st = (stepLogHandled,[said ['\n'],⟨.stepLog,(blocks r st log).2⟩]) := by
    rw [modeReportStepLog,regress]
    exact (regressReportStepLog_readable failed).trans (if_pos found)
  simp only [reportStepLog,rv]
  rfl

/-- Otherwise the utilities leave a failed step alone that is not named cvs. -/
theorem modeReportStepLog_unhandled (failed : FailedWith r st log) (other : r.mode ≠ .canvas)
    (plain : ¬ (r.mode = .robsdRegress ∧ (blocks r st log).1 > 0))
    (named : r.mode = .robsdPorts → st.string .name ≠ "cvs".toList) :
    ∃ rv : Int, modeReportStepLog r st = (rv,[]) ∧ rv ≠ stepLogError ∧ rv ≠ stepLogHandled := by
  unfold modeReportStepLog
  cases mode : r.mode with
  | robsd | robsdCross => exact ⟨0,rfl,by decide,by decide⟩
  | robsdPorts =>
    refine ⟨stepLogUnhandled,?_,by decide,by decide⟩
    dsimp only
    rw [portsReportStepLog,if_neg (named mode),if_neg fun both => failed.failed both.2]
  | robsdRegress =>
    refine ⟨stepLogUnhandled,?_,by decide,by decide⟩
    exact (regressReportStepLog_readable failed).trans (if_neg fun found => plain ⟨mode,found⟩)
  | canvas => exact absurd mode other

theorem reportStepLog_tail (failed : FailedWith r st log) (other : r.mode ≠ .canvas)
    (plain : ¬ (r.mode = .robsdRegress ∧ (blocks r st log).1 > 0)) (named : st.string .name ≠ "cvs".toList) :
    reportStepLog r st = (0,reportTail log) := by
  obtain ⟨rv,run,noError,unhandled⟩ := modeReportStepLog_unhandled failed other plain fun _ => named
  unfold reportStepLog
  rw [run]
  dsimp only
  rw [if_neg noError,if_neg unhandled,if_neg named,stepGetLogPath_some failed.field]
  dsimp only
  rw [failed.readable]
  dsimp only
  rw [List.nil_append]

theorem reportCvsFiles_code (tmpdir : Str) (paths : List (Mode × Str)) (ncvs : Nat) :
    (reportCvsFiles r tmpdir paths ncvs).1 = stepLogHandled ∨
      (reportCvsFiles r tmpdir paths ncvs).1 = stepLogError := by
  induction paths generalizing ncvs with
  | nil => exact .inl rfl
  | cons path paths ih =>
    obtain ⟨mode,filename⟩ := path
    rw [reportCvsFiles]
    split
    · exact ih ncvs
    · split
      · exact ih ncvs
      · dsimp only
        split
        · exact .inr rfl
        · exact ih _

theorem reportCvsLog_code : (reportCvsLog r).1 = stepLogHandled ∨ (reportCvsLog r).1 = stepLogError := by
  unfold reportCvsLog
  cases r.str _ with
  | none => exact .inr rfl
  | some tmpdir => exact reportCvsFiles_code tmpdir cvsPaths 0

/-- For a step named cvs the logs of changes take the place of its own. -/
theorem reportStepLog_cvs (failed : FailedWith r st log) (other : r.mode ≠ .canvas)
    (plain : ¬ (r.mode = .robsdRegress ∧ (blocks r st log).1 > 0)) (named : st.string .name = "cvs".toList) :
    (reportStepLog r st).2 = (reportCvsLog r).2 := by
  by_cases ports : r.mode = .robsdPorts
  · have rv : modeReportStepLog r st = reportCvsLog r := by
      unfold modeReportStepLog
      rw [ports]
      exact if_pos named
    unfold reportStepLog
    rw [rv]
    dsimp only
    rcases @reportCvsLog_code r with code | code
    · rw [code,if_neg (by decide),if_pos rfl]
    · rw [code,if_pos rfl]
  · obtain ⟨rv,run,noError,unhandled⟩ := modeReportStepLog_unhandled failed other plain fun mode => absurd mode ports
    unfold reportStepLog
    rw [run]
    dsimp only
    rw [if_neg noError,if_neg unhandled,if_pos named]
    dsimp only
    rw [List.nil_append]

/-- The log of a failed step that is reached the section shows, if it is printable. -/
theorem reportStepLog_shows (failed : FailedWith r st log) (other : r.mode ≠ .canvas) :
    Shows (heading st ++ (reportStepLog r st).2) (own r st log) ↔ Printable r st log := by
  have behind : Shows (heading st ++ (reportStepLog r st).2) (own r st log) ↔
    Shows (reportStepLog r st).2 (own r st log) := by
    simp only [Shows,List.mem_append]
    exact or_iff_right fun member => by cases heading_origin _ member
  rw [behind,Printable]
  by_cases extracted : r.mode = .robsdRegress ∧ (blocks r st log).1 > 0
  · rw [reportStepLog_extracted failed extracted.1 extracted.2,own,if_pos extracted]
    simp [Shows,extracted]
  · rw [own,if_neg extracted,or_iff_right extracted]
    by_cases named : st.string .name = "cvs".toList
    · rw [reportStepLog_cvs failed other extracted named]
      simp only [reportCvsLog_shows,named,ne_eq,not_true_eq_false,false_and]
    · rw [reportStepLog_tail failed other extracted named,reportTail_shows]
      simp only [ne_eq,named,not_false_eq_true,true_and]

end

/-! ## The report of all steps -/

/-- A step that failed has a section. -/
theorem reportSteps_failed {r : Context} {st : Step} (executed : st.integer .skip ≠ 1) (failed : st.integer .exit ≠ 0)
    (after : List Step) : ∃ rest, (reportSteps r (st :: after)).2 = sectionOf r st :: rest := by
  have passed : passedOver r st = 0 := by rw [passedOver,if_neg executed,if_neg failed]
  rw [reportSteps_cons,passed,if_neg (by decide),if_neg (by decide)]
  split
  · exact ⟨[],rfl⟩
  · exact ⟨_,rfl⟩

/-- In every mode but canvas, and whatever the steps before it are as long as they
    can be reported, the section of a failed step shows text from its own log if and
    only if that is printable. -/
theorem failed_step_shows_iff (r : Context) (other : r.mode ≠ .canvas) (before after : List Step) (st : Step)
    (log : Str) (reached : (reportSteps r before).1 = 0) (failed : FailedWith r st log) :
    Nonblank (own r st log) ∧
    ∃ sec rest, (reportSteps r (before ++ st :: after)).2 = (reportSteps r before).2 ++ sec :: rest ∧
      (Shows sec (own r st log) ↔ Printable r st log) := by
  obtain ⟨rest,shape⟩ := reportSteps_failed (r := r) failed.executed failed.failed after
  refine ⟨own_nonblank failed,sectionOf r st,rest,?_,reportStepLog_shows failed other⟩
  rw [reportSteps_append reached,shape]

/-- A build with a log of its first step, and no changes. -/
def refused : Context where
  mode := .robsd
  builddir := "/b".toList
  stepFile := ⟨[],[]⟩
  str _ := some "/b/tmp".toList
  integer _ fallback := fallback
  read _ := some "refused\n".toList
  absent _ := false
  size _ := some 0
  hostname := none
  sizes := []

/-- A step that failed. -/
def failing (name : Str) : Step := (⟨1,name,1,10,0,['l'],['r','o','o','t'],1666666666,0⟩ : StepFormat.Row).toStep

theorem refused_failed (name : Str) : FailedWith refused (failing name) "refused\n".toList :=
  ⟨by simp [failing,StepFormat.Row.toStep,Step.integer],by simp [failing,StepFormat.Row.toStep,Step.integer],
    by simp [failing,StepFormat.Row.toStep,Step.string],rfl,'r',by decide,by decide⟩

theorem failed_step_shows_iff_env : FailedWith refused (failing "env".toList) "refused\n".toList ∧
    Printable refused (failing "env".toList) "refused\n".toList ∧
    ∃ sec rest, (reportSteps refused ([] ++ failing "env".toList :: [])).2 = (reportSteps refused []).2 ++ sec :: rest ∧
      (Shows sec (own refused (failing "env".toList) "refused\n".toList) ↔
        Printable refused (failing "env".toList) "refused\n".toList) :=
  ⟨refused_failed _,.inr ⟨by decide,by decide,by decide⟩,
    (failed_step_shows_iff refused (by decide) [] [] _ _ rfl (refused_failed _)).2⟩

/-- The log of a step named cvs is not shown. -/
theorem failed_step_cvs : refused.mode ≠ .canvas ∧ FailedWith refused (failing "cvs".toList) "refused\n".toList ∧
    ∃ sec rest, (reportSteps refused [failing "cvs".toList]).2 = sec :: rest ∧
      ¬ Shows sec (own refused (failing "cvs".toList) "refused\n".toList) := by
  have failed := refused_failed "cvs".toList
  obtain ⟨rest,shape⟩ := reportSteps_failed (r := refused) failed.executed failed.failed []
  refine ⟨by decide,failed,_,rest,shape,?_⟩
  intro shows
  rcases (reportStepLog_shows failed (by decide)).mp shows with extracted | printed
  · cases extracted.1
  · exact printed.1 rfl

end Robsd.ReportLogs
