import Robsd.Decimal
import Robsd.Html
import Robsd.RegressTable
import Robsd.SuiteOrder

/-!
The page of robsd-regress-html (regress-html.c): the rows of its head, a column for
each invocation, and below them the rows of the suites. The functions write while they
go over the invocations and the runs; what is written is the tree `regressPage`, and it
is read again from the text.
-/
namespace Robsd.RegressPage
open Robsd.Strings
open Robsd.Decimal (decimal)
open Robsd.Markup
open Robsd.Html
open Robsd.RegressRuns
open Robsd.RegressTable (Cell Row cvswebUrl githubUrl renderRuns)
open Robsd.SuiteOrder (suiteCmp sortSuites sortSuites_perm)
open Robsd.Sorting (Qsort)

/-! ## The functions of the source -/

def arrow : DurationDelta → Str
  | .none => []
  | .faster => " &#8600;".toList
  | .slower => " &#8599;".toList

def renderDuration (ri : RegressInvocation) : Str :=
  let hours := ri.seconds/3600
  let minutes := (ri.seconds%3600)/60
  decimal hours.toInt32.toInt ++ 'h' ::
    (decimal minutes.toInt32.toInt ++ "m<span>".toList ++ arrow ri.delta ++ "</span>".toList)

/-- `render_rate`, with the percentage computed in floating point as a parameter. -/
def renderRate (percent : Nat → Nat → Int) (ri : RegressInvocation) : Str :=
  decimal (if 0 < ri.total then percent ri.fail ri.total else 0) ++ ['%']

def runStatusStr : RunStatus → Str
  | .pass => "PASS".toList
  | .fail => "FAIL".toList
  | .xfail => "XFAIL".toList
  | .xpass => "XPASS".toList
  | .skip => "SKIP".toList
  | .noterm => "NOTERM".toList

/-- A file of an invocation below the output directory. -/
def invocationFile (ri : RegressInvocation) (file : String) : Str := below (below ri.arch ri.date) file.toList

def link (href : Str) (body : Writer → Option Writer) : Writer → Option Writer :=
  htmlNode "a".toList [("href".toList,href)] body

/-- A row of the head: a label and a cell for each invocation. -/
def renderHead (label : String) (style : String) (cell : RegressInvocation → Writer → Option Writer) (r : RegressHtml) :
    Writer → Option Writer :=
  htmlNode "tr".toList [] (andThen (htmlNode "th".toList [] (htmlText label.toList))
    (forEach (fun ri => htmlNode "th".toList [("class".toList,style.toList)] (cell ri)) r.invocations))

def renderPassRates (percent : Nat → Nat → Int) : RegressHtml → Writer → Option Writer :=
  renderHead "pass rate" "pass" fun ri => htmlText (renderRate percent ri)

def renderDates : RegressHtml → Writer → Option Writer := renderHead "date" "date" fun ri => htmlText ri.date

def renderDurations : RegressHtml → Writer → Option Writer :=
  renderHead "duration" "duration" fun ri => htmlText (renderDuration ri)

def renderChangelog : RegressHtml → Writer → Option Writer :=
  renderHead "changelog" "cvs" fun ri =>
    if ri.cvs then link (invocationFile ri "comment") (htmlText "cvs".toList) else htmlText "n/a".toList

def renderPatches : RegressHtml → Writer → Option Writer :=
  renderHead "patches" "patch" fun ri =>
    if 0 < ri.patches then
      link (invocationFile ri "diff") (htmlText ("patches (".toList ++ decimal ri.patches ++ ")".toList))
    else htmlText "n/a".toList

def renderArches : RegressHtml → Writer → Option Writer :=
  renderHead "architecture" "arch" fun ri => link (invocationFile ri "dmesg") (htmlText ri.arch)

def renderRun (run : Run) : Writer → Option Writer :=
  let status := runStatusStr run.status
  htmlNode "td".toList [("class".toList,status)]
    (htmlNode "a".toList [("class".toList,"status".toList),("href".toList,run.log.text)] (htmlText status))

/-- The loop of `render_suite` over the runs. There is no result where an invocation
    past the end is inspected. -/
def renderCells : List RegressInvocation → List Run → Writer → Option Writer
  | _,[] => some
  | [],_ :: _ => fun _ => none
  | ri :: ris,run :: runs =>
    -- Compensate for missing run(s).
    if run.time.toInt < ri.time.toInt then andThen (htmlNode "td".toList [] some) (renderCells ris (run :: runs))
    else andThen (renderRun run) (renderCells ris runs)

def renderSuite (r : RegressHtml) (suite : Suite) : Writer → Option Writer :=
  let href := if suite.type = .informative then githubUrl suite.name else cvswebUrl suite.name
  htmlNode "tr".toList [] (andThen
    (htmlNode "td".toList [] (htmlNode "a".toList [("class".toList,"suite".toList),("href".toList,href)]
      (htmlText suite.name)))
    (renderCells r.invocations suite.runs))

/-- `regress_html_render`: what is written to `index.html`. -/
def regressHtmlRender (percent : Nat → Nat → Int) (q : Qsort suiteCmp) (r : RegressHtml) : Option Str := do
  let html ← htmlHead (htmlNode "title".toList [] (htmlText "OpenBSD regress".toList)) {}
  let html ← htmlNode "h1".toList [] (htmlText "OpenBSD regress latest test results".toList) html
  let suites := sortSuites q r.suites
  let html ← htmlNode "table".toList [] (andThen
    (htmlNode "thead".toList []
      (andThen (renderPassRates percent r) (andThen (renderDates r) (andThen (renderDurations r)
      (andThen (renderChangelog r) (andThen (renderPatches r) (renderArches r)))))))
    (htmlNode "tbody".toList [] (forEach (renderSuite r) suites))) html
  return htmlWrite html

/-! ## The page as a tree -/

/-- A row of the head. -/
def headTree (label : String) (style : String) (cell : RegressInvocation → Forest) (r : RegressHtml) : Forest :=
  .node "tr".toList [] ((Forest.node "th".toList [] (.leaf label.toList)).append
    (.concat (r.invocations.map fun ri => .node "th".toList [("class".toList,style.toList)] (cell ri))))

def linkTree (href text : Str) : Forest := .node "a".toList [("href".toList,href)] (.leaf text)

/-- What the head shows of an invocation. -/
def headRows (percent : Nat → Nat → Int) (r : RegressHtml) : List Forest :=
  [headTree "pass rate" "pass" (fun ri => .leaf (renderRate percent ri)) r,
   headTree "date" "date" (fun ri => .leaf ri.date) r,
   headTree "duration" "duration" (fun ri => .leaf (renderDuration ri)) r,
   headTree "changelog" "cvs" (fun ri =>
     if ri.cvs then linkTree (invocationFile ri "comment") "cvs".toList else .leaf "n/a".toList) r,
   headTree "patches" "patch" (fun ri =>
     if 0 < ri.patches then
       linkTree (invocationFile ri "diff") ("patches (".toList ++ decimal ri.patches ++ ")".toList)
     else .leaf "n/a".toList) r,
   headTree "architecture" "arch" (fun ri => linkTree (invocationFile ri "dmesg") ri.arch) r]

def runTree (run : Run) : Forest :=
  .node "td".toList [("class".toList,runStatusStr run.status)]
    (.node "a".toList [("class".toList,"status".toList),("href".toList,run.log.text)] (.leaf (runStatusStr run.status)))

def cellTree : Cell → Forest
  | .empty => .node "td".toList [] .nil
  | .run run => runTree run

def rowTree (row : Row) : Forest :=
  .node "tr".toList [] ((Forest.node "td".toList []
    (.node "a".toList [("class".toList,"suite".toList),("href".toList,row.href)] (.leaf row.name))).append
    (.concat (row.cells.map cellTree)))

def titleTree : Forest := .node "title".toList [] (.leaf "OpenBSD regress".toList)

/-- The body of the page, for the rows of its table. -/
def bodyTree (percent : Nat → Nat → Int) (r : RegressHtml) (rows : List Row) : Forest :=
  (Forest.node "h1".toList [] (.leaf "OpenBSD regress latest test results".toList)).append
    (.node "table".toList [] ((Forest.node "thead".toList [] (.concat (headRows percent r))).append
      (.node "tbody".toList [] (.concat (rows.map rowTree)))))

/-- The rows of the suites, in the order of `sort_suites`. -/
def tableRows (q : Qsort suiteCmp) (r : RegressHtml) : Option (List Row) :=
  (sortSuites q r.suites).mapM (RegressTable.renderSuite r)

/-! ## What is written is the tree -/

theorem writes_link (href text : Str) : Writes (link href (htmlText text)) (some (linkTree href text)) :=
  writes_node _ _ (writes_text text)

theorem mapM_then {α β γ : Type} (f : α → Option β) (g : β → γ) (xs : List α) :
    xs.mapM (fun x => (f x).map g) = (xs.mapM f).map (List.map g) := by
  induction xs with
  | nil => rfl
  | cons x xs ih =>
    rw [List.mapM_cons,List.mapM_cons,ih]
    cases f x with
    | none => rfl
    | some y => cases xs.mapM f <;> rfl

theorem writes_head {label style : String} {cell : RegressInvocation → Writer → Option Writer}
    {tree : RegressInvocation → Forest} (cells : ∀ ri, Writes (cell ri) (some (tree ri))) (r : RegressHtml) :
    Writes (renderHead label style cell r) (some (headTree label style tree r)) := by
  have turn := writes_forEach (fun ri => writes_node "th".toList [("class".toList,style.toList)] (cells ri))
    r.invocations
  have row := writes_node "tr".toList [] (writes_seq (writes_node "th".toList [] (writes_text label.toList)) turn)
  have total := List.mapM_pure (m := Option) (l := r.invocations)
    (f := fun ri => Forest.node "th".toList [("class".toList,style.toList)] (tree ri))
  simp only [Option.map_some,Option.bind_some] at row
  simp only [Option.pure_def] at total
  rw [total] at row
  exact row

theorem writes_run (run : Run) : Writes (renderRun run) (some (runTree run)) :=
  writes_node _ _ (writes_node _ _ (writes_text _))

/-- The loop over the runs writes the cells of the row. -/
theorem writes_cells (ris : List RegressInvocation) (runs : List Run) :
    Writes (renderCells ris runs) ((renderRuns ris runs).map fun cells => .concat (cells.map cellTree)) := by
  induction ris generalizing runs with
  | nil =>
    cases runs with
    | nil => exact writes_nothing
    | cons run runs => exact fun _ => rfl
  | cons ri ris ih =>
    cases runs with
    | nil => exact writes_nothing
    | cons run runs =>
      rw [renderCells,renderRuns]
      split_ifs with missing
      · have cells := writes_seq (writes_node "td".toList [] writes_nothing) (ih (run :: runs))
        simp only [Option.map_some,Option.bind_some,Option.map_map] at cells ⊢
        exact cells
      · have cells := writes_seq (writes_run run) (ih runs)
        simp only [Option.bind_some,Option.map_map] at cells ⊢
        exact cells

theorem writes_suite (r : RegressHtml) (suite : Suite) :
    Writes (renderSuite r suite) ((RegressTable.renderSuite r suite).map rowTree) := by
  have name := writes_node "td".toList [] (writes_node "a".toList [("class".toList,"suite".toList),
    ("href".toList,if suite.type = .informative then githubUrl suite.name else cvswebUrl suite.name)]
      (writes_text suite.name))
  have row := writes_node "tr".toList [] (writes_seq name (writes_cells r.invocations suite.runs))
  simp only [Option.map_some,Option.bind_some,Option.map_map] at row
  simp only [RegressTable.renderSuite,Option.map_map]
  exact row

theorem writes_if {p : Prop} [Decidable p] {first second : Writer → Option Writer} {f g : Forest}
    (yes : Writes first (some f)) (no : Writes second (some g)) :
    Writes (if p then first else second) (some (if p then f else g)) := by
  split_ifs
  · exact yes
  · exact no

theorem writes_thead (percent : Nat → Nat → Int) (r : RegressHtml) :
    Writes (htmlNode "thead".toList []
      (andThen (renderPassRates percent r) (andThen (renderDates r) (andThen (renderDurations r)
      (andThen (renderChangelog r) (andThen (renderPatches r) (renderArches r)))))))
      (some (.node "thead".toList [] (.concat (headRows percent r)))) := by
  have passRates : Writes (renderPassRates percent r) _ := writes_head (fun ri => writes_text (renderRate percent ri)) r
  have dates : Writes (renderDates r) _ := writes_head (fun ri => writes_text ri.date) r
  have durations : Writes (renderDurations r) _ := writes_head (fun ri => writes_text (renderDuration ri)) r
  have changelog : Writes (renderChangelog r) _ := writes_head (fun ri => writes_if (writes_link _ _) (writes_text _)) r
  have patches : Writes (renderPatches r) _ := writes_head (fun ri => writes_if (writes_link _ _) (writes_text _)) r
  have arches : Writes (renderArches r) _ := writes_head (fun ri => writes_link _ _) r
  have rows := writes_seq passRates
    (writes_seq dates (writes_seq durations (writes_seq changelog (writes_seq patches arches))))
  exact writes_node _ _ rows

/-- `regress_html_render` writes the tree of the page, if no row reads past the last
    invocation. -/
theorem regressHtmlRender_eq (percent : Nat → Nat → Int) (q : Qsort suiteCmp) (r : RegressHtml) :
    regressHtmlRender percent q r = (tableRows q r).map fun rows => pageText titleTree (bodyTree percent r rows) := by
  have title : Writes (htmlNode "title".toList [] (htmlText "OpenBSD regress".toList)) (some titleTree) :=
    writes_node "title".toList [] (writes_text "OpenBSD regress".toList)
  have heading := writes_node "h1".toList [] (writes_text "OpenBSD regress latest test results".toList)
  have rows := writes_node "tbody".toList [] (writes_forEach (writes_suite r) (sortSuites q r.suites))
  have table := writes_node "table".toList [] (writes_seq (writes_thead percent r) rows)
  simp only [regressHtmlRender,htmlHead_writes title,Option.bind_eq_bind,Option.bind_some]
  rw [heading]
  simp only [Option.map_some,Option.bind_some]
  rw [table]
  simp only [tableRows,mapM_then]
  cases (sortSuites q r.suites).mapM (RegressTable.renderSuite r) with
  | none => rfl
  | some rows =>
    simp only [Option.map_some,Option.bind_some,htmlWrite,printf_bf,pageText,bodyTree,print_append,List.append_assoc]
    rfl

/-! ## The page is read again -/

/-- The names of what is shown are not taken for markup. -/
structure PlainNames (r : RegressHtml) : Prop where
  invocations : ∀ ri ∈ r.invocations, PlainText ri.arch ∧ PlainText ri.date ∧ '"' ∉ ri.arch ∧ '"' ∉ ri.date
  suites : ∀ suite ∈ r.suites, PlainText suite.name ∧ '"' ∉ suite.name
  logs : ∀ suite ∈ r.suites, ∀ run ∈ suite.runs, '\n' ∉ run.log.text ∧ '"' ∉ run.log.text

instance (r : RegressHtml) : Decidable (PlainNames r) :=
  decidable_of_iff ((∀ ri ∈ r.invocations, PlainText ri.arch ∧ PlainText ri.date ∧ '"' ∉ ri.arch ∧ '"' ∉ ri.date) ∧
    (∀ suite ∈ r.suites, PlainText suite.name ∧ '"' ∉ suite.name) ∧
    ∀ suite ∈ r.suites, ∀ run ∈ suite.runs, '\n' ∉ run.log.text ∧ '"' ∉ run.log.text)
    ⟨fun all => ⟨all.1,all.2.1,all.2.2⟩,fun names => ⟨names.invocations,names.suites,names.logs⟩⟩

theorem plain_decimal (n : Int) {s : Str} (single : '\n' ∉ s) : PlainText (decimal n ++ s) := by
  have absent : '\n' ∉ decimal n := Decimal.decimal_absent n rfl (by decide)
  refine ⟨by simp [absent,single],?_⟩
  rw [List.head?_append_of_ne_nil _ (Decimal.decimal_ne_nil n)]
  intro first
  have member := List.mem_of_head? first
  exact Decimal.decimal_absent n rfl (by decide) member

theorem plain_duration (ri : RegressInvocation) : PlainText (renderDuration ri) := by
  have absent : ∀ n, '\n' ∉ decimal n := fun n => Decimal.decimal_absent n rfl (by decide)
  have arrows : '\n' ∉ arrow ri.delta := by cases ri.delta <;> decide
  exact plain_decimal _ (by simp [absent,arrows])

theorem plain_rate (percent : Nat → Nat → Int) (ri : RegressInvocation) : PlainText (renderRate percent ri) :=
  plain_decimal _ (by decide)

/-- An attribute that is a constant of the source, or a path. -/
theorem plain_attr {key : String} {value : Str} (constant : '\n' ∉ key.toList ∧ '=' ∉ key.toList)
    (single : '\n' ∉ value) (quoted : '"' ∉ value) :
    PlainAttr (key.toList,value) :=
  ⟨constant.1,single,constant.2,quoted⟩

theorem plain_link {href text : Str} (single : '\n' ∉ href) (quoted : '"' ∉ href) (plain : PlainText text) :
    Plain (linkTree href text) := by
  refine plain_node.mpr ⟨by decide,?_,plain_leaf.mpr plain⟩
  rintro a (_ | ⟨_,⟨⟩⟩)
  exact plain_attr (by decide) single quoted

theorem plain_head {label style : String} {cell : RegressInvocation → Forest} {r : RegressHtml}
    (plainLabel : PlainText label.toList) (single : '\n' ∉ style.toList) (quoted : '"' ∉ style.toList)
    (cells : ∀ ri ∈ r.invocations, Plain (cell ri)) :
    Plain (headTree label style cell r) := by
  refine plain_node.mpr ⟨by decide,by simp,(plain_append _ _).mpr
    ⟨plain_node.mpr ⟨by decide,by simp,plain_leaf.mpr plainLabel⟩,?_⟩⟩
  rw [plain_concat]
  intro f member
  obtain ⟨ri,here,rfl⟩ := List.mem_map.mp member
  refine plain_node.mpr ⟨by decide,?_,cells ri here⟩
  rintro a (_ | ⟨_,⟨⟩⟩)
  exact plain_attr (by decide) single quoted

/-- A row shows runs of its suite. -/
theorem renderRuns_mem {ris : List RegressInvocation} {runs : List Run} {cells : List Cell} {run : Run}
    (written : renderRuns ris runs = some cells) (shown : .run run ∈ cells) : run ∈ runs := by
  induction ris generalizing runs cells with
  | nil =>
    cases runs with
    | nil => cases written; cases shown
    | cons other runs => cases written
  | cons ri ris ih =>
    cases runs with
    | nil => cases written; cases shown
    | cons other runs =>
      rw [renderRuns] at written
      split_ifs at written with missing
      · obtain ⟨later,rest,rfl⟩ := Option.map_eq_some_iff.mp written
        rcases List.mem_cons.mp shown with ⟨⟨⟩⟩ | shown
        exact ih rest shown
      · obtain ⟨later,rest,rfl⟩ := Option.map_eq_some_iff.mp written
        rcases List.mem_cons.mp shown with same | shown
        · rw [Cell.run.inj same]
          exact List.mem_cons_self
        · exact List.mem_cons_of_mem _ (ih rest shown)

section
variable {r : RegressHtml} (names : PlainNames r)
include names

/-- The path of a file of an invocation ends no attribute. -/
theorem plain_file {ri : RegressInvocation} (member : ri ∈ r.invocations) {file : String}
    (constant : '\n' ∉ file.toList ∧ '"' ∉ file.toList) :
    '\n' ∉ invocationFile ri file ∧ '"' ∉ invocationFile ri file := by
  obtain ⟨arch,date,archQuoted,dateQuoted⟩ := names.invocations ri member
  simp [invocationFile,below,arch.line,date.line,archQuoted,dateQuoted,constant]

theorem plain_headRows (percent : Nat → Nat → Int) : ∀ row ∈ headRows percent r, Plain row := by
  have file : ∀ ri ∈ r.invocations, ∀ file : String, '\n' ∉ file.toList ∧ '"' ∉ file.toList →
      '\n' ∉ invocationFile ri file ∧ '"' ∉ invocationFile ri file :=
        fun ri member file constant => plain_file names member constant
  simp only [headRows,List.forall_mem_cons,List.not_mem_nil,false_implies,implies_true,and_true]
  refine ⟨?rates,?dates,?durations,?changelog,?patches,?arches⟩
  case rates => exact plain_head (by decide) (by decide) (by decide) fun ri _ => plain_leaf.mpr (plain_rate percent ri)
  case dates =>
    exact plain_head (by decide) (by decide) (by decide) fun ri member =>
      plain_leaf.mpr (names.invocations ri member).2.1
  case durations => exact plain_head (by decide) (by decide) (by decide) fun ri _ => plain_leaf.mpr (plain_duration ri)
  case changelog =>
    apply plain_head (by decide) (by decide) (by decide)
    intro ri member
    have comment := file ri member "comment" (by decide)
    split_ifs
    · exact plain_link comment.1 comment.2 (by decide)
    · exact plain_leaf.mpr (by decide)
  case patches =>
    apply plain_head (by decide) (by decide) (by decide)
    intro ri member
    have diff := file ri member "diff" (by decide)
    have absent : '\n' ∉ decimal ri.patches := Decimal.decimal_absent _ rfl (by decide)
    split_ifs
    · exact plain_link diff.1 diff.2 ⟨by simp [absent],by simp⟩
    · exact plain_leaf.mpr (by decide)
  case arches =>
    apply plain_head (by decide) (by decide) (by decide)
    intro ri member
    have dmesg := file ri member "dmesg" (by decide)
    exact plain_link dmesg.1 dmesg.2 (names.invocations ri member).1

theorem plain_runTree {suite : Suite} (member : suite ∈ r.suites) {run : Run} (here : run ∈ suite.runs) :
    Plain (runTree run) := by
  obtain ⟨single,quoted⟩ := names.logs suite member run here
  have status : PlainText (runStatusStr run.status) ∧ '"' ∉ runStatusStr run.status := by cases run.status <;> decide
  refine plain_node.mpr ⟨by decide,?_,plain_node.mpr ⟨by decide,?_,plain_leaf.mpr status.1⟩⟩
  · rintro a (_ | ⟨_,⟨⟩⟩)
    exact plain_attr (by decide) status.1.line status.2
  · rintro a (_ | ⟨_,_ | ⟨_,⟨⟩⟩⟩)
    · exact plain_attr (by decide) (by decide) (by decide)
    · exact plain_attr (by decide) single quoted

theorem plain_rowTree {suite : Suite} (member : suite ∈ r.suites) {row : Row}
    (rendered : RegressTable.renderSuite r suite = some row) :
    Plain (rowTree row) := by
  obtain ⟨plainName,quotedName⟩ := names.suites suite member
  obtain ⟨cells,written,rfl⟩ := Option.map_eq_some_iff.mp rendered
  have url : ∀ c, c ∉ suite.name → c ∉ ("https://cvsweb.openbsd.org/cgi-bin/cvsweb/src/regress/".toList ++
      "https://github.com/mptre/robsd/blob/master/robsd-regress-".toList ++ ".sh".toList) →
      c ∉ if suite.type = .informative then githubUrl suite.name else cvswebUrl suite.name := by
    intro c name constants
    split_ifs
    · intro member
      rcases List.mem_append.mp member with front | last
      · rcases List.mem_append.mp front with first | inside
        · exact constants (List.mem_append_left _ (List.mem_append_right _ first))
        · exact name inside
      · exact constants (List.mem_append_right _ last)
    · intro member
      rcases List.mem_append.mp member with first | inside
      · exact constants (List.mem_append_left _ (List.mem_append_left _ first))
      · exact name inside
  have single := url '\n' plainName.line (by decide +kernel)
  have quoted := url '"' quotedName (by decide +kernel)
  refine plain_node.mpr ⟨by decide,by simp,(plain_append _ _).mpr ⟨plain_node.mpr ⟨by decide,by simp,?_⟩,?_⟩⟩
  · refine plain_node.mpr ⟨by decide,?_,plain_leaf.mpr plainName⟩
    rintro a (_ | ⟨_,_ | ⟨_,⟨⟩⟩⟩)
    · exact plain_attr (by decide) (by decide) (by decide)
    · exact plain_attr (by decide) single quoted
  · rw [plain_concat]
    intro f there
    obtain ⟨cell,shown,rfl⟩ := List.mem_map.mp there
    cases cell with
    | empty => exact plain_node.mpr ⟨by decide,by simp,trivial⟩
    | run run => exact plain_runTree names member (renderRuns_mem written shown)

theorem plain_bodyTree (percent : Nat → Nat → Int) {rows : List Row} (plainRows : ∀ row ∈ rows, Plain (rowTree row)) :
    Plain (bodyTree percent r rows) := by
  refine (plain_append _ _).mpr ⟨plain_node.mpr ⟨by decide,by simp,plain_leaf.mpr (by decide)⟩,
    plain_node.mpr ⟨by decide,by simp,?_⟩⟩
  refine (plain_append _ _).mpr ⟨plain_node.mpr ⟨by decide,by simp,?_⟩,plain_node.mpr ⟨by decide,by simp,?_⟩⟩
  · exact (plain_concat _).mpr (plain_headRows names percent)
  · rw [plain_concat]
    intro f member
    obtain ⟨row,here,rfl⟩ := List.mem_map.mp member
    exact plainRows row here

end

theorem mapM_forall₂ {α β : Type} {f : α → Option β} {p : α → β → Prop} {plain : β → Prop} {xs : List α}
    (each : ∀ x ∈ xs, ∃ y, f x = some y ∧ p x y ∧ plain y) :
    ∃ ys, xs.mapM f = some ys ∧ List.Forall₂ p xs ys ∧ ∀ y ∈ ys, plain y := by
  induction xs with
  | nil => exact ⟨[],rfl,.nil,by simp⟩
  | cons x xs ih =>
    obtain ⟨y,found,holds,first⟩ := each x List.mem_cons_self
    obtain ⟨ys,others,all,later⟩ := ih fun z member => each z (List.mem_cons_of_mem _ member)
    exact ⟨y :: ys,by rw [List.mapM_cons,found,others]; rfl,.cons holds all,List.forall_mem_cons.mpr ⟨first,later⟩⟩

/-- What is collected from any machines is shown by a page that is read as a table with
    a column for each invocation and the suites in their order, each run standing below
    its invocation, if the runs of a suite are separate and no name is taken for markup. -/
theorem page_read {host : Host} {output : Str} {directories : List Str} {arguments : List (Str × Str)}
    {r : RegressHtml} (percent : Nat → Nat → Int) (q : Qsort suiteCmp)
    (collected : parseArguments host arguments (regressHtmlAlloc output directories) = some r)
    (names : PlainNames r) (separate : ∀ suite ∈ r.suites, RegressTable.Separate r.invocations suite.runs) :
    ∃ rows text, regressHtmlRender percent q r = some text ∧ readPage text = some (titleTree,bodyTree percent r rows) ∧
      List.Forall₂ (fun suite row => row.name = suite.name ∧ RegressTable.Aligned r.invocations suite.runs row.cells)
        (sortSuites q r.suites) rows := by
  have each : ∀ suite ∈ sortSuites q r.suites, ∃ row, RegressTable.renderSuite r suite = some row ∧
      (row.name = suite.name ∧ RegressTable.Aligned r.invocations suite.runs row.cells) ∧ Plain (rowTree row) := by
    intro suite sorted
    have member := (sortSuites_perm q r.suites).mem_iff.mp sorted
    have known := parseArguments_ordered (regressHtmlAlloc_consistent output directories)
      (regressHtmlAlloc_ordered output directories) collected
    obtain ⟨cells,written,aligned⟩ :=
      (RegressTable.renderRuns_aligned (RegressTable.remaining known.1 known.2 member)).mpr (separate suite member)
    have rendered := congrArg (Option.map fun cells =>
      (⟨if suite.type = .informative then githubUrl suite.name else cvswebUrl suite.name,
      suite.name,cells⟩ : Row)) written
    exact ⟨_,rendered,⟨rfl,aligned⟩,plain_rowTree names member rendered⟩
  obtain ⟨rows,rendered,shown,plainRows⟩ := mapM_forall₂ each
  refine ⟨rows,pageText titleTree (bodyTree percent r rows),?_,?_,shown⟩
  · rw [regressHtmlRender_eq,tableRows,rendered]
    rfl
  · exact readPage_pageText (plain_node.mpr ⟨by decide,by simp,plain_leaf.mpr (by decide)⟩)
      (plain_bodyTree names percent plainRows)

/-- The page of two machines, one of which did not run the suite. -/
theorem page_read_sample : ∃ r rows text, RegressTable.collected (RegressTable.suiteFile "" "200")
    (RegressTable.suiteFile (RegressTable.testSuite "100") "100") = some r ∧
      regressHtmlRender (fun _ _ => 100) (Sorting.insertion suiteCmp) r = some text ∧
        readPage text = some (titleTree,bodyTree (fun _ _ => 100) r rows) := by
  have found : (RegressTable.collected (RegressTable.suiteFile "" "200")
    (RegressTable.suiteFile (RegressTable.testSuite "100") "100")).any
      fun r => decide (PlainNames r ∧ ∀ suite ∈ r.suites, RegressTable.Separate r.invocations suite.runs) := by
        decide +kernel
  obtain ⟨r,collected,found⟩ := (Option.any_eq_true _ _).mp found
  obtain ⟨names,separate⟩ := of_decide_eq_true found
  obtain ⟨rows,text,rendered,read,_⟩ := page_read (fun _ _ => 100) (Sorting.insertion suiteCmp) collected names separate
  exact ⟨r,rows,text,collected,rendered,read⟩

end Robsd.RegressPage
