import Robsd.ReportLogs

/-!
Files a report cannot read. A report that misses one fails, except where the logs
of changes for the step cvs of robsd cannot be read: their error is compared with
the wrong codes and lost.
-/
namespace Robsd.ReportErrors
open Robsd.Strings
open Robsd.Modes
open Robsd.ConfigParse (reference)
open Robsd.RegressLog
open Robsd.RegressRuns (below)
open Robsd.Steps (Step StepFile stepsParse)
open Robsd.Report

/-! ## The files of a section -/

/-- The logs of changes that are not empty, or not there. -/
def changeLogs (r : Context) (tmpdir : Str) (paths : List (Mode × Str)) : List Str :=
  ((paths.filter fun path => path.1 = r.mode).map fun path => below tmpdir path.2).filter fun path =>
    r.size path ≠ some 0

/-- The log of a step, if it has one. -/
def ownLog (r : Context) (st : Step) : List Str := (stepGetLogPath r st).toList

/-- Files in the directory for temporary files. -/
def temporary (r : Context) (files : Str → List Str) : List Str :=
  ((r.str (reference "tmp-dir".toList)).map files).getD []

/-- The files that the section of a step has to read. -/
def needs (r : Context) (st : Step) : List Str :=
  match r.mode with
  | .robsd | .robsdCross =>
    if st.string .name = "cvs".toList then temporary r fun tmpdir => changeLogs r tmpdir cvsPaths else ownLog r st
  | .robsdPorts =>
    if st.string .name = "cvs".toList then temporary r fun tmpdir => changeLogs r tmpdir cvsPaths
    else if st.string .name = "dpb".toList ∧ st.integer .exit = 0 then
      temporary r fun tmpdir => [below tmpdir "packages.diff".toList]
    else ownLog r st
  | .robsdRegress | .canvas => ownLog r st

/-- A step that is given a section for which a file cannot be read. -/
structure Troubled (r : Context) (st : Step) : Prop where
  rendered : passedOver r st = 0
  unreadable : ∃ path ∈ needs r st, r.read path = none

/-- A step that ends the report. -/
def Fails (r : Context) (st : Step) : Prop := passedOver r st ≠ 1 ∧ (passedOver r st = -1 ∨ (reportStepLog r st).1 ≠ 0)

/-- The report of the steps fails if one of them does. -/
theorem reportSteps_fails_iff (r : Context) (steps : List Step) :
    (reportSteps r steps).1 ≠ 0 ↔ ∃ st ∈ steps, Fails r st := by
  induction steps with
  | nil => simp [reportSteps]
  | cons st steps ih =>
    rw [reportSteps_cons,List.exists_mem_cons_iff,← ih,Fails]
    by_cases skipped : passedOver r st = 1
    · simp [skipped]
    rw [if_neg skipped]
    by_cases broken : passedOver r st = -1
    · simp [broken]
    rw [if_neg broken]
    by_cases failed : (reportStepLog r st).1 ≠ 0
    · rw [if_pos failed]
      simp [skipped,failed]
    · rw [if_neg failed]
      simp [broken,failed]

/-! ## Errors of a step -/

section
variable {r : Context} {st : Step}

theorem formatFile_unreadable {origin : Origin} {path : Str} (unreadable : r.read path = none) :
    (formatFile r origin path).1 = 1 := by
  rw [formatFile,unreadable]

theorem reportCvsFiles_unreadable {tmpdir path : Str} {paths : List (Mode × Str)} (ncvs : Nat)
    (needed : path ∈ changeLogs r tmpdir paths) (unreadable : r.read path = none) :
    (reportCvsFiles r tmpdir paths ncvs).1 = stepLogError := by
  induction paths generalizing ncvs with
  | nil => cases needed
  | cons head paths ih =>
    obtain ⟨mode,filename⟩ := head
    rw [reportCvsFiles]
    by_cases other : mode ≠ r.mode
    · rw [if_pos other]
      apply ih ncvs
      simpa [changeLogs,other] using needed
    rw [if_neg other]
    by_cases empty : r.size (below tmpdir filename) = some 0
    · rw [if_pos empty]
      apply ih ncvs
      simpa [changeLogs,Decidable.not_not.mp other,empty] using needed
    rw [if_neg empty]
    dsimp only
    have cases : path = below tmpdir filename ∨ path ∈ changeLogs r tmpdir paths := by
      simpa [changeLogs,Decidable.not_not.mp other,empty] using needed
    split
    · rfl
    · next read =>
      rcases cases with rfl | later
      · exact absurd (by rw [formatFile_unreadable unreadable]; decide) read
      · exact ih _ later

/-- A log of changes that cannot be read is an error. -/
theorem reportCvsLog_unreadable {path : Str} (needed : path ∈ temporary r fun tmpdir => changeLogs r tmpdir cvsPaths)
    (unreadable : r.read path = none) : (reportCvsLog r).1 = stepLogError := by
  unfold temporary at needed
  unfold reportCvsLog
  cases tmp : r.str (reference "tmp-dir".toList) with
  | none => rfl
  | some tmpdir =>
    rw [tmp] at needed
    exact reportCvsFiles_unreadable 0 needed unreadable

theorem temporary_cross (mode : r.mode = .robsdCross) :
    (temporary r fun tmpdir => changeLogs r tmpdir cvsPaths) = [] := by
  unfold temporary
  cases r.str (reference "tmp-dir".toList) with
  | none => rfl
  | some tmpdir => simp [changeLogs,cvsPaths,mode]

theorem ownLog_mem {path : Str} (needed : path ∈ ownLog r st) : stepGetLogPath r st = some path := by
  simpa [ownLog] using needed

/-- The error of a mode is one of the step. -/
theorem reportStepLog_error (error : (modeReportStepLog r st).1 = stepLogError) : (reportStepLog r st).1 ≠ 0 := by
  unfold reportStepLog
  dsimp only
  rw [if_pos error]
  exact Int.one_ne_zero

/-- A log that cannot be read is an error where the mode leaves it to be shown. -/
theorem reportStepLog_unreadable {path : Str}
    (plain : modeReportStepLog r st = (0,[]) ∨ modeReportStepLog r st = (stepLogUnhandled,[]))
    (named : st.string .name ≠ "cvs".toList) (needed : path ∈ ownLog r st) (unreadable : r.read path = none) :
    (reportStepLog r st).1 ≠ 0 := by
  unfold reportStepLog
  rcases plain with run | run
  all_goals
    rw [run]
    dsimp only
    rw [if_neg (by decide),if_neg (by decide),if_neg named,ownLog_mem needed]
    dsimp only
    rw [unreadable]
    exact Int.one_ne_zero

/-- Files that cannot be read are errors, but for those in place of the log of a
    step cvs of robsd. -/
theorem troubled_fails (troubled : Troubled r st) (kept : ¬ (r.mode = .robsd ∧ st.string .name = "cvs".toList)) :
    Fails r st := by
  obtain ⟨rendered,path,needed,unreadable⟩ := troubled
  refine ⟨by rw [rendered]; decide,.inr ?_⟩
  unfold needs at needed
  cases mode : r.mode with
  | robsd =>
    have named : st.string .name ≠ "cvs".toList := fun same => kept ⟨mode,same⟩
    rw [mode] at needed
    dsimp only at needed
    rw [if_neg named] at needed
    exact reportStepLog_unreadable (.inl (by rw [modeReportStepLog,mode])) named needed unreadable
  | robsdCross =>
    rw [mode] at needed
    dsimp only at needed
    by_cases named : st.string .name = "cvs".toList
    · rw [if_pos named] at needed
      rw [temporary_cross mode] at needed
      cases needed
    · rw [if_neg named] at needed
      exact reportStepLog_unreadable (.inl (by rw [modeReportStepLog,mode])) named needed unreadable
  | robsdPorts =>
    rw [mode] at needed
    dsimp only at needed
    by_cases named : st.string .name = "cvs".toList
    · rw [if_pos named] at needed
      apply reportStepLog_error
      rw [modeReportStepLog,mode]
      dsimp only
      rw [portsReportStepLog,if_pos named]
      exact reportCvsLog_unreadable needed unreadable
    rw [if_neg named] at needed
    by_cases packages : st.string .name = "dpb".toList ∧ st.integer .exit = 0
    · rw [if_pos packages] at needed
      apply reportStepLog_error
      rw [modeReportStepLog,mode]
      dsimp only
      rw [portsReportStepLog,if_neg named,if_pos packages]
      unfold temporary at needed
      cases tmp : r.str (reference "tmp-dir".toList) with
      | none => rfl
      | some tmpdir =>
        rw [tmp] at needed
        have same : path = below tmpdir "packages.diff".toList := List.mem_singleton.mp needed
        dsimp only
        rw [if_pos (by rw [← same,formatFile_unreadable unreadable]; decide)]
    · rw [if_neg packages] at needed
      refine reportStepLog_unreadable (.inr ?_) named needed unreadable
      rw [modeReportStepLog,mode]
      dsimp only
      rw [portsReportStepLog,if_neg named,if_neg packages]
  | robsdRegress =>
    rw [mode] at needed
    apply reportStepLog_error
    rw [modeReportStepLog,mode]
    dsimp only
    rw [regressReportStepLog,ownLog_mem needed]
    dsimp only
    rw [unreadable]
    rfl
  | canvas =>
    rw [mode] at needed
    apply reportStepLog_error
    rw [modeReportStepLog,mode]
    dsimp only
    rw [canvasReportStepLog,ownLog_mem needed]
    dsimp only
    rw [unreadable]
    rfl

end

/-! ## Errors of robsd -/

section
variable {r : Context} {st : Step} (robsd : r.mode = .robsd)
include robsd

theorem passedOver_robsd : passedOver r st = 0 ∨ passedOver r st = 1 := by
  unfold passedOver
  split
  · exact .inr rfl
  · split
    · unfold reportSkipStep
      rw [robsd]
      dsimp only
      split
      · exact .inl rfl
      · split
        · exact .inl rfl
        · exact .inr rfl
    · exact .inl rfl

/-- The section of a step fails for its log only, and the one of the step cvs never. -/
theorem fails_robsd (fails : Fails r st) : Troubled r st ∧ st.string .name ≠ "cvs".toList := by
  obtain ⟨shown,broken⟩ := fails
  have rendered : passedOver r st = 0 := (passedOver_robsd robsd).resolve_right shown
  rw [rendered] at broken
  have error := broken.resolve_left (by decide)
  have plain : modeReportStepLog r st = (0,[]) := by rw [modeReportStepLog,robsd]
  unfold reportStepLog at error
  rw [plain] at error
  dsimp only at error
  rw [if_neg (by decide),if_neg (by decide)] at error
  by_cases named : st.string .name = "cvs".toList
  · rw [if_pos named] at error
    dsimp only at error
    have never : ¬ (reportCvsLog r).1 < 0 := by
      rcases ReportLogs.reportCvsLog_code (r := r) with code | code <;> rw [code] <;> decide
    rw [if_neg never] at error
    exact absurd rfl error
  · rw [if_neg named] at error
    refine ⟨⟨rendered,?_⟩,named⟩
    cases path : stepGetLogPath r st with
    | none => rw [path] at error; exact absurd rfl error
    | some file =>
      rw [path] at error
      dsimp only at error
      refine ⟨file,?_,?_⟩
      · unfold needs
        rw [robsd]
        dsimp only
        rw [if_neg named,ownLog,path]
        exact List.mem_singleton_self file
      · cases read : r.read file with
        | none => rfl
        | some text => rw [read] at error; exact absurd rfl error

end

/-! ## Propagation -/

/-- An error among the steps is one of the report. -/
theorem reportGenerate_fails {r : Context} {builddir text : Str} {sf : StepFile}
    (read : r.read (below builddir "step.csv".toList) = some text) (parsed : stepsParse text = .ok sf)
    (failed : (reportSteps (r.on builddir sf) sf.steps).1 ≠ 0) : (reportGenerate r builddir).1 ≠ 0 := by
  unfold reportGenerate
  rw [read]
  dsimp only
  rw [parsed]
  dsimp only
  by_cases subject : (reportSubject (r.on builddir sf)).1 ≠ 0
  · rw [if_pos subject]
    exact Int.one_ne_zero
  rw [if_neg subject]
  by_cases stats : (reportStats (r.on builddir sf)).1 ≠ 0
  · rw [if_pos stats]
    exact Int.one_ne_zero
  rw [if_neg stats]
  by_cases comment : (reportComment (r.on builddir sf)).1 ≠ 0
  · rw [if_pos comment]
    exact Int.one_ne_zero
  rw [if_neg comment,if_pos failed]
  exact Int.one_ne_zero

/-- Where a file cannot be read that a section has to read, the report of the steps
    fails, unless that is so in robsd for steps named cvs alone. The whole report
    fails with the report of the steps. -/
theorem errors_propagate_iff (r : Context) :
    (∀ steps : List Step, ((∃ st ∈ steps, Troubled r st) → (reportSteps r steps).1 ≠ 0) ↔
      (r.mode = .robsd → (∃ st ∈ steps, Troubled r st ∧ st.string .name = "cvs".toList) →
        ∃ st ∈ steps, Troubled r st ∧ st.string .name ≠ "cvs".toList)) ∧
    ∀ (builddir text : Str) (sf : StepFile), r.read (below builddir "step.csv".toList) = some text →
      stepsParse text = .ok sf → (reportSteps (r.on builddir sf) sf.steps).1 ≠ 0 →
        (reportGenerate r builddir).1 ≠ 0 := by
  refine ⟨?_,fun _ _ _ => reportGenerate_fails⟩
  intro steps
  rw [reportSteps_fails_iff]
  constructor
  · rintro propagates robsd ⟨st,member,troubled,_⟩
    obtain ⟨st',member',fails⟩ := propagates ⟨st,member,troubled⟩
    exact ⟨st',member',fails_robsd robsd fails⟩
  · rintro other ⟨st,member,troubled⟩
    by_cases lost : r.mode = .robsd ∧ st.string .name = "cvs".toList
    · obtain ⟨st',member',troubled',named⟩ := other lost.1 ⟨st,member,troubled,lost.2⟩
      exact ⟨st',member',troubled_fails troubled' fun both => named both.2⟩
    · exact ⟨st,member,troubled_fails troubled lost⟩

/-- A build of robsd of which nothing can be read. -/
def unfetched : Context := { ReportLogs.refused with read := fun _ => none, size := fun _ => none }

/-- The report is delivered without the logs of changes that are not there. -/
theorem errors_propagate_cvs : Troubled unfetched (ReportLogs.failing "cvs".toList) ∧
    (reportSteps unfetched [ReportLogs.failing "cvs".toList]).1 = 0 := by
  constructor
  · exact ⟨by decide,below "/b/tmp".toList "cvs-src-up.log".toList,by decide,rfl⟩
  · by_contra failed
    obtain ⟨st,member,fails⟩ := (reportSteps_fails_iff unfetched _).mp failed
    have named := (fails_robsd rfl fails).2
    rw [List.mem_singleton.mp member] at named
    exact named rfl

end Robsd.ReportErrors
