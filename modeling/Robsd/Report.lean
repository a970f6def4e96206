import Mathlib.Data.List.DropRight
import Robsd.ConfigParse
import Robsd.Durations
import Robsd.RegressLog
import Robsd.RegressRuns

/-!
The report (report.c): its subject, statistics and comment, and a section for
each step that is worth one, with the text that was taken from the log of the step
or from files in its place.
-/
namespace Robsd.Report
open Robsd.Strings
open Robsd.Modes
open Robsd.ConfigLayout (intMax)
open Robsd.ConfigLexer (i32)
open Robsd.ConfigParse (reference regressname)
open Robsd.Decimal (decimal)
open Robsd.Durations
open Robsd.RegressLog
open Robsd.RegressRuns (below)
open Robsd.Steps (Field Step StepFile stepsParse)

/-! ## Context -/

/-- `struct report_context`, with what the configuration answers, whatever was asked
    before, and what the machine tells: files, the host name, and the lines on sizes. -/
structure Context where
  mode : Mode
  builddir : Str
  stepFile : StepFile
  str : Str → Option Str
  integer : Str → Int → Int
  read : Str → Option Str
  absent : Str → Bool
  size : Str → Option Nat
  hostname : Option Str
  sizes : List Str

/-! ## Output -/

/-- The files text in the output buffer is taken from. -/
inductive Origin where
  | report
  | stepLog
  | changeLog
  | packages
  deriving DecidableEq, Repr

/-- Text that was put into the output buffer. -/
structure Piece where
  origin : Origin
  text : Str
  deriving DecidableEq, Repr

/-- Text that is taken from no file. -/
def said (text : Str) : Piece := ⟨.report,text⟩

/-- The content of the output buffer. -/
def written (out : List Piece) : Str := out.flatMap (·.text)

/-- `buffer_printf`; nothing is put where `vsnprintf` cannot return the length. -/
def bufferPrintf (out : List Piece) : List Piece := if (written out).length ≤ intMax then out else []

/-- The directive `%.*s`. A negative precision is taken for none. -/
def precision (n : Int) (str : Str) : Str := cstring (if n < 0 then str else str.take n.toNat)

/-- `buffer_trim_lines`. -/
def bufferTrimLines (text : Str) : Str := text.rdropWhile (· = '\n')

/-- `format_file`. -/
def formatFile (r : Context) (origin : Origin) (path : Str) : Int × List Piece :=
  match r.read path with
  | none => (1,[])
  | some text => (0,[⟨origin,bufferTrimLines text⟩,said ['\n']])

/-- The loop of `last_lines`, on the text ahead of the cursor. -/
def lastLinesLoop : Nat → Str → Str
  | 0,ahead => ahead
  | nlines+1,ahead =>
    let ahead := (ahead.rdropWhile (· = '\n')).rdropWhile (· ≠ '\n')
    if ahead = [] then [] else lastLinesLoop nlines ahead

/-- `last_lines`. -/
def lastLines (str : Str) (nlines : Nat) : Str := str.drop (lastLinesLoop nlines str).length

/-! ## Step logs -/

def stepLogHandled : Int := 1
def stepLogUnhandled : Int := 2
def stepLogError : Int := 3

/-- `step_get_log_path`. -/
def stepGetLogPath (r : Context) (st : Step) : Option Str :=
  if st.string .log = [] then none else some (below r.builddir (st.string .log))

/-- `paths` of `report_cvs_log`. -/
def cvsPaths : List (Mode × Str) := [
  (.robsd,"cvs-src-up.log".toList),
  (.robsd,"cvs-src-ci.log".toList),
  (.robsd,"cvs-xenocara-up.log".toList),
  (.robsd,"cvs-xenocara-ci.log".toList),
  (.robsdPorts,"cvs-ports-up.log".toList),
  (.robsdPorts,"cvs-ports-ci.log".toList)]

/-- The loop of `report_cvs_log`. -/
def reportCvsFiles (r : Context) (tmpdir : Str) : List (Mode × Str) → Nat → Int × List Piece
  | [],_ => (stepLogHandled,[])
  | (mode,filename) :: paths,ncvs =>
    if mode ≠ r.mode then reportCvsFiles r tmpdir paths ncvs
    else if r.size (below tmpdir filename) = some 0 then reportCvsFiles r tmpdir paths ncvs
    else
      let lead := if ncvs > 0 then [said ['\n']] else []
      let file := formatFile r .changeLog (below tmpdir filename)
      if file.1 ≠ 0 then (stepLogError,lead ++ file.2)
      else
        let rest := reportCvsFiles r tmpdir paths (ncvs+1)
        (rest.1,lead ++ file.2 ++ rest.2)

/-- `report_cvs_log`. -/
def reportCvsLog (r : Context) : Int × List Piece :=
  match r.str (reference "tmp-dir".toList) with
  | none => (stepLogError,[])
  | some tmpdir =>
    let files := reportCvsFiles r tmpdir cvsPaths 0
    (files.1,said ['\n'] :: files.2)

/-- `ports_report_skip_step`. -/
def portsReportSkipStep (st : Step) : Int :=
  if st.string .name = "cvs".toList then 0
  else if st.string .name = "dpb".toList then 0
  else 1

/-- `ports_report_step_log`. -/
def portsReportStepLog (r : Context) (st : Step) : Int × List Piece :=
  if st.string .name = "cvs".toList then reportCvsLog r
  else if st.string .name = "dpb".toList ∧ st.integer .exit = 0 then
    match r.str (reference "tmp-dir".toList) with
    | none => (stepLogError,[])
    | some tmpdir =>
      let file := formatFile r .packages (below tmpdir "packages.diff".toList)
      (if file.1 ≠ 0 then stepLogError else stepLogHandled,said ['\n'] :: file.2)
  else (stepLogUnhandled,[])

/-- `is_regress_quiet`. -/
def isRegressQuiet (r : Context) (name : Str) : Bool := r.integer (regressname name "quiet".toList) 0 = 1

/-- `regress_report_skip_step`. -/
def regressReportSkipStep (r : Context) (st : Step) : Int :=
  if st.string .name = "end".toList ∨ isRegressQuiet r (st.string .name) then 1
  else match stepGetLogPath r st with
    | none => -1
    | some path =>
      if regressLogPeek (r.read path) { failed := false, skipped := true, xfailed := true, xpassed := false } > 0 then 0
      else 1

/-- The outcomes that `regress_report_step_log` asks for. -/
def regressLogFlags (quiet : Bool) : Flags := { failed := true, skipped := !quiet, xfailed := !quiet, xpassed := true }

/-- `regress_report_step_log`. -/
def regressReportStepLog (r : Context) (st : Step) : Int × List Piece :=
  match stepGetLogPath r st with
  | none => (stepLogError,[])
  | some path =>
    let parsed := regressLogParse (r.read path) [] (regressLogFlags (isRegressQuiet r (st.string .name)))
    if parsed.1 > 0 then (stepLogHandled,[said ['\n'],⟨.stepLog,parsed.2⟩])
    else if parsed.1 < 0 then (stepLogError,[])
    else (stepLogUnhandled,[])

/-- `canvas_report_step_log`. -/
def canvasReportStepLog (r : Context) (st : Step) : Int × List Piece :=
  match stepGetLogPath r st with
  | none => (stepLogUnhandled,[])
  | some path =>
    let parsed := regressLogParse (r.read path) []
      { failed := true, skipped := false, xfailed := false, xpassed := false }
    if parsed.1 > 0 then (stepLogHandled,bufferPrintf [said ['\n'],⟨.stepLog,cstring parsed.2⟩])
    else match r.read path with
      | none => (stepLogError,[])
      | some text => (stepLogHandled,bufferPrintf [said ['\n'],⟨.stepLog,cstring text⟩])

/-- The loop of `is_log_empty`. -/
def isTraceOnly (text : Str) : Bool :=
  match text with
  | [] => true
  | c :: cs =>
    if c ≠ '+' then false
    else match _found : strchr '\n' (c :: cs) with
      | none => true
      | some (_,rest) => isTraceOnly rest
termination_by text.length
decreasing_by exact strchr_length _found

/-- `is_log_empty`. -/
def isLogEmpty (r : Context) (st : Step) : Bool :=
  match r.read (below r.builddir (st.string .log)) with
  | none => true
  | some text => isTraceOnly text

/-- `report_skip_step`. -/
def reportSkipStep (r : Context) (st : Step) : Int :=
  match r.mode with
  | .robsdPorts => portsReportSkipStep st
  | .robsdRegress => regressReportSkipStep r st
  | _ =>
    if st.string .name = "cvs".toList then 0
    else if st.string .name = "checkflist".toList ∧ isLogEmpty r st = false then 0
    else 1

/-- What the utilities do about a step log of their own accord. -/
def modeReportStepLog (r : Context) (st : Step) : Int × List Piece :=
  match r.mode with
  | .robsdPorts => portsReportStepLog r st
  | .robsdRegress => regressReportStepLog r st
  | .canvas => canvasReportStepLog r st
  | _ => (0,[])

/-- The tail of a log as it is put into the output buffer. -/
def reportTail (text : Str) : List Piece :=
  let str := lastLines text 10
  bufferPrintf [said ['\n'],⟨.stepLog,precision (i32 str.length) str⟩] ++
    if str ≠ [] ∧ str.getLast? ≠ some '\n' then [said ['\n']] else []

/-- `report_step_log`. -/
def reportStepLog (r : Context) (st : Step) : Int × List Piece :=
  let rv := modeReportStepLog r st
  if rv.1 = stepLogError then (1,rv.2)
  else if rv.1 = stepLogHandled then (0,rv.2)
  else if st.string .name = "cvs".toList then
    let log := reportCvsLog r
    (if log.1 < 0 then 1 else 0,rv.2 ++ log.2)
  else match stepGetLogPath r st with
    | none => (0,rv.2)
    | some path =>
      match r.read path with
      | none => (1,rv.2)
      | some text => (0,rv.2 ++ reportTail text)

/-- The lines a section starts with. -/
def heading (st : Step) : List Piece :=
  bufferPrintf [said ("\n> ".toList ++ st.string .name ++ ['\n'])] ++
  bufferPrintf [said ("Exit: ".toList ++ decimal (int (st.integer .exit)) ++ ['\n'])] ++
  bufferPrintf [said ("Duration: ".toList ++
    formatDurationAndDelta (st.integer .duration) (st.integer .delta) 0 ++ ['\n'])] ++
  bufferPrintf [said ("Log: ".toList ++ st.string .log ++ ['\n'])]

/-- `report_steps`, with what it puts into the output buffer by sections. -/
def reportSteps (r : Context) : List Step → Int × List (List Piece)
  | [] => (0,[])
  | st :: steps =>
    if st.integer .skip = 1 then reportSteps r steps
    else
      let skip := if st.integer .exit = 0 then reportSkipStep r st else 0
      if skip = 1 then reportSteps r steps
      else if skip = -1 then (1,[])
      else
        let log := reportStepLog r st
        if log.1 ≠ 0 then (1,[heading st ++ log.2])
        else ((reportSteps r steps).1,(heading st ++ log.2) :: (reportSteps r steps).2)

/-! ## The whole report -/

/-- `number_of_failures_report_status`. -/
def numberOfFailuresReportStatus (steps : List Step) : Str :=
  let nfailures := steps.countP fun st => st.integer .exit ≠ 0
  if nfailures > 0 then
    decimal nfailures ++ " failure".toList ++ if nfailures > 1 then ['s'] else []
  else "ok".toList

/-- The loop of `report_status`, on the steps from the last one on. -/
def reportStatusLoop : List Step → Str
  | [] => "ok".toList
  | st :: steps =>
    if st.integer .skip = 1 then reportStatusLoop steps
    else if st.integer .exit = 0 then "ok".toList
    else "failed in ".toList ++ st.string .name

/-- `report_status`. -/
def reportStatus (r : Context) : Str :=
  match r.mode with
  | .robsdRegress | .canvas => numberOfFailuresReportStatus r.stepFile.steps
  | _ => reportStatusLoop r.stepFile.steps.reverse

/-- `cross_report_subject`. -/
def crossReportSubject (r : Context) : Option Str :=
  match r.read (below r.builddir "target".toList) with
  | none => none
  | some text =>
    some (' ' :: (r.str (reference "machine".toList)).getD [] ++ '.' ::
      (cstring text).takeWhile (· ≠ '\n') ++ ": ".toList)

/-- `report_subject`. -/
def reportSubject (r : Context) : Int × List Piece :=
  match r.mode with
  | .canvas =>
    match r.str (reference "canvas-name".toList) with
    | none => (1,[])
    | some name =>
      (0,bufferPrintf [said ("Subject: ".toList ++ robsdModeStr r.mode ++ ": ".toList ++ name ++ ": ".toList ++
        reportStatus r ++ "\n\n".toList)])
  | mode =>
    match r.hostname with
    | none => (1,[])
    | some name =>
      let hostname := name.takeWhile (· ≠ '.')
      let statusPrefix := if mode = .robsdCross then (crossReportSubject r).getD "(null)".toList else [' ']
      (0,bufferPrintf [said ("Subject: ".toList ++ robsdModeStr mode ++ ": ".toList ++ hostname ++
        ':' :: statusPrefix ++ reportStatus r ++ "\n\n".toList)])

/-- `report_stats`. -/
def reportStats (r : Context) : Int × List Piece :=
  let out := [said "> stats\n".toList] ++
    bufferPrintf [said ("Status: ".toList ++ reportStatus r ++ ['\n'])] ++
    [said ("Duration: ".toList ++ reportStatsDuration r.stepFile r.mode ++ ['\n'])] ++
    bufferPrintf [said ("Build: ".toList ++ r.builddir ++ ['\n'])]
  match r.str (reference "tags-path".toList) with
  | none => (1,out)
  | some path =>
    let tags := match r.read path with
      | none => []
      | some tags => [said "Tags: ".toList,said tags]
    (0,out ++ tags ++ if r.mode = .robsd then r.sizes.map said else [])

/-- `report_comment`. -/
def reportComment (r : Context) : Int × List Piece :=
  match r.str (reference "comment-path".toList) with
  | none => (1,[])
  | some path =>
    match r.read path with
    | none => (if r.absent path then 0 else 1,[])
    | some text => (0,[said "\n> comment\n".toList,said (bufferTrimLines text),said ['\n']])

/-- `report_sanitize`. -/
def reportSanitize (text : Str) : Str :=
  text.flatMap fun c => if c = nul then "\\x00".toList else if c = '\r' then "\\r".toList else [c]

/-- The context of the report on a build. -/
def Context.on (r : Context) (builddir : Str) (sf : StepFile) : Context :=
  { r with builddir := builddir, stepFile := sf }

/-- `report_generate`: whether it fails, and the content of the output buffer. -/
def reportGenerate (r : Context) (builddir : Str) : Int × Str :=
  match r.read (below builddir "step.csv".toList) with
  | none => (1,[])
  | some text =>
    match stepsParse text with
    | .error _ => (1,[])
    | .ok sf =>
      let r := r.on builddir sf
      let subject := reportSubject r
      if subject.1 ≠ 0 then (1,written subject.2)
      else
        let stats := reportStats r
        if stats.1 ≠ 0 then (1,written (subject.2 ++ stats.2))
        else
          let comment := reportComment r
          if comment.1 ≠ 0 then (1,written (subject.2 ++ stats.2 ++ comment.2))
          else
            let steps := reportSteps r sf.steps
            let out := written (subject.2 ++ stats.2 ++ comment.2 ++ steps.2.flatten)
            if steps.1 ≠ 0 then (1,out) else (0,reportSanitize out)

/-! ## Steps -/

/-- Whether a step is passed over (1) or cannot be reported (-1). -/
def passedOver (r : Context) (st : Step) : Int :=
  if st.integer .skip = 1 then 1 else if st.integer .exit = 0 then reportSkipStep r st else 0

/-- The section of a step. -/
def sectionOf (r : Context) (st : Step) : List Piece := heading st ++ (reportStepLog r st).2

theorem reportSteps_cons (r : Context) (st : Step) (steps : List Step) :
    reportSteps r (st :: steps) =
      if passedOver r st = 1 then reportSteps r steps
      else if passedOver r st = -1 then (1,[])
      else if (reportStepLog r st).1 ≠ 0 then (1,[sectionOf r st])
      else ((reportSteps r steps).1,sectionOf r st :: (reportSteps r steps).2) := by
  rw [reportSteps,passedOver]
  by_cases skipped : st.integer .skip = 1
  · rw [if_pos skipped,if_pos skipped,if_pos rfl]
  · rw [if_neg skipped,if_neg skipped]
    rfl

/-- The steps behind steps that are reported without an error. -/
theorem reportSteps_append {r : Context} {before : List Step} (reached : (reportSteps r before).1 = 0)
    (after : List Step) :
    reportSteps r (before ++ after) = ((reportSteps r after).1,
      (reportSteps r before).2 ++ (reportSteps r after).2) := by
  induction before with
  | nil => rfl
  | cons st before ih =>
    rw [reportSteps_cons] at reached
    rw [List.cons_append,reportSteps_cons,reportSteps_cons r st before]
    by_cases skipped : passedOver r st = 1
    · rw [if_pos skipped] at reached
      rw [if_pos skipped,if_pos skipped,ih reached]
    rw [if_neg skipped] at reached
    rw [if_neg skipped,if_neg skipped]
    by_cases broken : passedOver r st = -1
    · rw [if_pos broken] at reached
      cases reached
    rw [if_neg broken] at reached
    rw [if_neg broken,if_neg broken]
    by_cases failed : (reportStepLog r st).1 ≠ 0
    · rw [if_pos failed] at reached
      cases reached
    rw [if_neg failed] at reached
    rw [if_neg failed,if_neg failed,ih reached]
    rfl

end Robsd.Report
