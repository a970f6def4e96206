import Robsd.Invocations
import Robsd.Steps

/-!
What robsd-regress-html collects (regress-html.c): the invocations of each
architecture and, for every suite, its runs, both with the latest first.
-/
namespace Robsd.RegressRuns
open Robsd.Strings
open Robsd.Sorting (Qsort)
open Robsd.Steps
open Robsd.Invocations (Platform Dirent InvocationEntry invocationAlloc walkAll)

/-! ## Data -/

inductive DurationDelta where
  | none
  | faster
  | slower
  deriving DecidableEq

/-- `struct regress_invocation`, less the paths below the output directory, which
    are made of the architecture and the date. -/
structure RegressInvocation where
  arch : Str
  date : Str
  time : Int64
  seconds : Int64
  delta : DurationDelta
  patches : Nat
  total : Nat
  fail : Nat
  cvs : Bool
  deriving DecidableEq

inductive RunStatus where
  | pass
  | fail
  | xfail
  | xpass
  | skip
  | noterm
  deriving DecidableEq

/-- The path of the copy of a log, `arch/date/log`. -/
structure LogPath where
  arch : Str
  date : Str
  log : Str
  deriving DecidableEq

def LogPath.text (path : LogPath) : Str := path.arch ++ '/' :: (path.date ++ '/' :: path.log)

/-- `struct run`. -/
structure Run where
  log : LogPath
  time : Int64
  exit : Int64
  status : RunStatus
  deriving DecidableEq

inductive SuiteType where
  | unknown
  | informative
  | nonRegress
  | regress
  deriving DecidableEq

/-- `struct suite`. -/
structure Suite where
  name : Str
  type : SuiteType
  fail : Nat
  runs : List Run
  deriving DecidableEq

/-- `struct regress_html`, next to the directories that exist. -/
structure RegressHtml where
  output : Str
  invocations : List RegressInvocation
  suites : List Suite
  directories : List Str
  deriving DecidableEq

/-- `regress_html_alloc`. -/
def regressHtmlAlloc (output : Str) (directories : List Str) : RegressHtml := ⟨output,[],[],directories⟩

inductive LogFlag where
  | failed
  | skipped
  | xfailed
  | xpassed
  | newline
  deriving DecidableEq

/-- The files, what regress-log.c makes of the logs, and `qsort` with the
    comparison functions, both of which are in descending order of time. -/
structure Host where
  platform : Platform
  listing : Str → Option (List Dirent)
  invocationFind : Str → Option (List InvocationEntry)
  read : Str → Option Str
  readable : Str → Bool
  creates : Str → Bool
  writes : Str → Bool
  hasTag : Str → Str → Bool
  logPeek : Str → LogFlag → Int
  logParse : Str → List LogFlag → Int
  logTrim : Str → Int
  invocationSort : Qsort fun ri : RegressInvocation => OrderDual.toDual ri.time.toInt
  runSort : Qsort fun run : Run => OrderDual.toDual run.time.toInt

/-! ## Parsing -/

def durationDelta (a b : Int64) : DurationDelta :=
  let delta := a-b
  let abs := if delta < 0 then -delta else delta
  if abs ≤ 10*60 then .none
  else if delta < 0 then .faster
  else .slower

def isRunStatusFailure : RunStatus → Bool
  | .pass => false
  | .fail => true
  | .xfail => false
  | .xpass => true
  | .skip => false
  | .noterm => true

def categorizeSuite (name : Str) : SuiteType :=
  if "../".toList.isPrefixOf name then .nonRegress
  else if name = "pkg-add".toList then .informative
  else if '/' ∈ name then .regress
  else .unknown

/-- The suite `find_suite` returns, changed; a new one is put behind the others. -/
def changeSuite (name : Str) (type : SuiteType) (change : Suite → Suite) : List Suite → List Suite
  | [] => [change ⟨name,type,0,[]⟩]
  | suite :: suites => if suite.name = name then change suite :: suites
    else suite :: changeSuite name type change suites

/-- A path below a directory. -/
def below (directory name : Str) : Str := directory ++ '/' :: name

/-- `mkdir`, which fails where something exists. -/
def mkdir (host : Host) (directories : List Str) (path : Str) : Option (List Str) :=
  if path ∈ directories ∨ host.creates path = false then none else some (path :: directories)

/-- `mkdir` of what could already have been created while handling a previous invocation. -/
def mkdirMissing (host : Host) (directories : List Str) (path : Str) : Option (List Str) :=
  if path ∈ directories then some directories else mkdir host directories path

/-- `create_regress_invocation`. -/
def createRegressInvocation (host : Host) (r : RegressHtml) (arch date : Str) (time duration : Int64) :
    Option (RegressInvocation × List Str) := do
  let path := below r.output arch
  let directories ← mkdirMissing host r.directories path
  let directories ← mkdir host directories (below path date)
  return (⟨arch,date,time,duration,.none,0,0,0,false⟩,directories)

/-- `copy_files`: whether it succeeds. -/
def copyFiles (host : Host) (output arch date directory : Str) : Bool :=
  ["dmesg".toList,"comment".toList].all fun name =>
    (host.read (below directory name)).isNone || host.writes (below output (LogPath.text ⟨arch,date,name⟩))

/-- `copy_patches`: their number, and the directories afterwards. -/
def copyPatches (host : Host) (directories : List Str) (output arch date directory : Str) : Option (Nat × List Str) :=
  match host.invocationFind directory with
  | none => some (0,directories)
  | some entries => do
    let path := below output (LogPath.text ⟨arch,date,"diff".toList⟩)
    let directories ← mkdir host directories path
    if entries.all fun entry => (host.read entry.path).isSome && host.writes (below path entry.basename) then
      some (entries.length,directories)
    else none

def exTimeout : Int64 := 124

/-- `parse_run_log`: the status, unless it fails. -/
def parseRunLog (host : Host) (output : Str) (exit : Int64) (src : Str) (dst : LogPath) : Option RunStatus :=
  if host.readable src = false then none
  else
    let status :=
      if exit = exTimeout then .noterm
      -- Higher precedence to XPASS than FAIL.
      else if exit ≠ 0 then if host.logPeek src .xpassed > 0 then .xpass else .fail
      else if host.logPeek src .xfailed > 0 then .xfail
      else if host.logPeek src .skipped > 0 then .skip
      else .pass
    let nfail := host.logParse src [.failed,.xfailed,.xpassed]
    let nskip := host.logParse src (if nfail > 0 then [.skipped,.newline] else [.skipped])
    if (nfail > 0 ∨ isRunStatusFailure status = false ∧ nskip > 0 ∨ host.logTrim src > 0) ∧
      host.writes (below output dst.text) then
      some status
    else none

/-- One turn of the loop of `parse_invocation`. -/
def parseRun (host : Host) (output directory : Str) (st : Step) (ri : RegressInvocation) (suites : List Suite) :
    Option (RegressInvocation × List Suite) :=
  let name := st.string .name
  let type := categorizeSuite name
  if type = .unknown then some (ri,suites)
  else do
    let log : LogPath := ⟨ri.arch,ri.date,st.string .log⟩
    let status ← parseRunLog host output (st.integer .exit) (below directory (st.string .log)) log
    let run : Run := ⟨log,ri.time,st.integer .exit,status⟩
    let failed := if isRunStatusFailure status then 1 else 0
    return ({ ri with total := ri.total+1, fail := ri.fail+failed },
      changeSuite name type (fun suite => { suite with runs := suite.runs ++ [run], fail := suite.fail+failed }) suites)

/-- The loop of `parse_invocation`. -/
def parseRuns (host : Host) (output directory : Str) :
    List Step → RegressInvocation → List Suite → Option (RegressInvocation × List Suite)
  | [],ri,suites => some (ri,suites)
  | st :: steps,ri,suites => do
    let (ri,suites) ← parseRun host output directory st ri suites
    parseRuns host output directory steps ri suites

/-- `parse_invocation`. -/
def parseInvocation (host : Host) (r : RegressHtml) (arch directory date : Str) : Option RegressHtml := do
  let text ← host.read (below directory "step.csv".toList)
  let stepFile ← (stepsParse text).toOption
  let first ← stepFile.steps.head?
  let last ← stepsFindByName stepFile.steps "end".toList
  let (ri,directories) ← createRegressInvocation host r arch date (first.integer .time) (last.integer .duration)
  if copyFiles host r.output arch date directory = false then none
  else do
    let (count,directories) ← copyPatches host directories r.output arch date directory
    let ri := { ri with cvs := host.hasTag directory "cvs".toList, patches := count }
    let (ri,suites) ← parseRuns host r.output directory stepFile.steps ri r.suites
    return { r with invocations := r.invocations ++ [ri], suites := suites, directories := directories }

/-- The last invocation compared to the one before it. -/
def compareDurations (invocations : List RegressInvocation) : List RegressInvocation :=
  match invocations.reverse with
  | ri :: before :: others =>
    (({ ri with delta := durationDelta ri.seconds before.seconds } :: before :: others)).reverse
  | _ => invocations

/-- The loop of `regress_html_parse`, after some invocations of the architecture. -/
def parseInvocations (host : Host) (arch : Str) : List InvocationEntry → Nat → RegressHtml → Option RegressHtml
  | [],_,r => some r
  | entry :: entries,ninvocations,r => do
    let r ← parseInvocation host r arch entry.path entry.basename
    let invocations := if 2 ≤ ninvocations+1 then compareDurations r.invocations else r.invocations
    parseInvocations host arch entries (ninvocations+1) { r with invocations := invocations }

/-- `regress_html_parse`. -/
def regressHtmlParse (host : Host) (r : RegressHtml) (arch robsddir : Str) : Option RegressHtml := do
  let directories ← invocationAlloc host.platform robsddir (below robsddir "attic".toList) (host.listing robsddir) .asc
  let r ← parseInvocations host arch (walkAll directories) 0 r
  return { r with
    invocations := host.invocationSort.sort r.invocations
    suites := r.suites.map fun suite => { suite with runs := host.runSort.sort suite.runs } }

/-- The loop over the arguments `arch:path` of robsd-regress-html. -/
def parseArguments (host : Host) : List (Str × Str) → RegressHtml → Option RegressHtml
  | [],r => some r
  | (arch,robsddir) :: arguments,r => do
    let r ← regressHtmlParse host r arch robsddir
    parseArguments host arguments r

/-! ## What is collected -/

/-- The run was parsed from the invocation: its log has been copied below it. -/
def RegressInvocation.Ran (ri : RegressInvocation) (run : Run) : Prop := run.log.arch = ri.arch ∧ run.log.date = ri.date

instance (ri : RegressInvocation) (run : Run) : Decidable (ri.Ran run) := inferInstanceAs (Decidable (_ ∧ _))

/-- The directory an invocation has been given below the output directory. -/
def RegressInvocation.directory (output : Str) (ri : RegressInvocation) : Str := below (below output ri.arch) ri.date

/-- No two invocations share a directory, and every run was parsed from one of
    them and carries its time. -/
structure Consistent (r : RegressHtml) : Prop where
  created : ∀ ri ∈ r.invocations, ri.directory r.output ∈ r.directories
  distinct : (r.invocations.map (RegressInvocation.directory r.output)).Nodup
  parsed : ∀ suite ∈ r.suites, ∀ run ∈ suite.runs, ∃ ri ∈ r.invocations, ri.Ran run ∧ ri.time = run.time

/-- Both with the latest first. -/
structure Ordered (r : RegressHtml) : Prop where
  invocations : r.invocations.Pairwise fun a b => b.time.toInt ≤ a.time.toInt
  runs : ∀ suite ∈ r.suites, suite.runs.Pairwise fun a b => b.time.toInt ≤ a.time.toInt

theorem mkdir_some {host : Host} {directories directories' : List Str} {path : Str}
    (made : mkdir host directories path = some directories') :
    path ∉ directories ∧ directories' = path :: directories := by
  unfold mkdir at made
  split at made
  · cases made
  · next absent => exact ⟨fun present => absent (.inl present),(Option.some.inj made).symm⟩

/-- The directory of a new invocation did not exist before. -/
theorem createRegressInvocation_some {host : Host} {r : RegressHtml} {arch date : Str} {time duration : Int64}
    {ri : RegressInvocation} {directories : List Str}
    (created : createRegressInvocation host r arch date time duration = some (ri,directories)) :
    ri = ⟨arch,date,time,duration,.none,0,0,0,false⟩ ∧ ri.directory r.output ∉ r.directories ∧
      ri.directory r.output ∈ directories ∧ r.directories ⊆ directories := by
  simp only [createRegressInvocation,Option.bind_eq_bind,Option.bind_eq_some_iff,Option.pure_def,Option.some.injEq,
    Prod.mk.injEq] at created
  obtain ⟨first,arch_,second,date_,rfl,rfl⟩ := created
  obtain ⟨absent,rfl⟩ := mkdir_some date_
  have more : r.directories ⊆ first := by
    unfold mkdirMissing at arch_
    split at arch_
    · rw [Option.some.inj arch_]
      intro _
      exact id
    · rw [(mkdir_some arch_).2]
      exact List.subset_cons_self _ _
  exact ⟨rfl,fun present => absent (more present),List.mem_cons_self,fun _ here => List.mem_cons_of_mem _ (more here)⟩

theorem copyPatches_some {host : Host} {directories directories' : List Str}
    {output arch date directory : Str} {count : Nat}
    (copied : copyPatches host directories output arch date directory = some (count,directories')) :
    directories ⊆ directories' := by
  unfold copyPatches at copied
  split at copied
  · rw [(Prod.mk.inj (Option.some.inj copied)).2]
    intro _
    exact id
  · simp only [Option.bind_eq_bind,Option.bind_eq_some_iff] at copied
    obtain ⟨made,path,copied⟩ := copied
    split at copied
    · rw [← (Prod.mk.inj (Option.some.inj copied)).2,(mkdir_some path).2]
      exact List.subset_cons_self _ _
    · cases copied

/-- A suite after a change is another suite, or the change of one that was there or is new. -/
theorem mem_changeSuite {name : Str} {type : SuiteType} {change : Suite → Suite} {suites : List Suite} {suite : Suite}
    (member : suite ∈ changeSuite name type change suites) :
    suite ∈ suites ∨ ∃ before, (before ∈ suites ∨ before = ⟨name,type,0,[]⟩) ∧ suite = change before := by
  induction suites with
  | nil => exact .inr ⟨_,.inr rfl,List.mem_singleton.mp member⟩
  | cons first suites ih =>
    unfold changeSuite at member
    split at member
    · rcases List.mem_cons.mp member with rfl | later
      · exact .inr ⟨first,.inl (by simp),rfl⟩
      · exact .inl (List.mem_cons_of_mem _ later)
    · rcases List.mem_cons.mp member with rfl | later
      · exact .inl (by simp)
      · rcases ih later with same | ⟨before,here | new,rfl⟩
        · exact .inl (List.mem_cons_of_mem _ same)
        · exact .inr ⟨before,.inl (List.mem_cons_of_mem _ here),rfl⟩
        · exact .inr ⟨before,.inr new,rfl⟩

/-- Every run of the suites is an earlier one or was parsed from the invocation. -/
def Gains (ri : RegressInvocation) (suites suites' : List Suite) : Prop :=
  ∀ suite ∈ suites', ∀ run ∈ suite.runs, (∃ before ∈ suites, run ∈ before.runs) ∨ ri.Ran run ∧ ri.time = run.time

/-- The counters change, and the suites gain runs of the invocation. -/
theorem parseRun_some {host : Host} {output directory : Str} {st : Step} {ri ri' : RegressInvocation}
    {suites suites' : List Suite} (parsed : parseRun host output directory st ri suites = some (ri',suites')) :
    (ri'.arch = ri.arch ∧ ri'.date = ri.date ∧ ri'.time = ri.time) ∧ Gains ri suites suites' := by
  simp only [parseRun] at parsed
  split at parsed
  · cases parsed
    exact ⟨⟨rfl,rfl,rfl⟩,fun suite member run here => .inl ⟨suite,member,here⟩⟩
  · simp only [Option.bind_eq_bind,Option.bind_eq_some_iff,Option.pure_def,Option.some.injEq,Prod.mk.injEq] at parsed
    obtain ⟨status,_,rfl,rfl⟩ := parsed
    refine ⟨⟨rfl,rfl,rfl⟩,?_⟩
    intro suite member run here
    rcases mem_changeSuite member with same | ⟨before,known,rfl⟩
    · exact .inl ⟨suite,same,here⟩
    · rcases List.mem_append.mp here with earlier | new
      · rcases known with same | rfl
        · exact .inl ⟨before,same,earlier⟩
        · cases earlier
      · rw [List.mem_singleton.mp new]
        exact .inr ⟨⟨rfl,rfl⟩,rfl⟩

theorem parseRuns_some {host : Host} {output directory : Str} {steps : List Step} {ri ri' : RegressInvocation}
    {suites suites' : List Suite}
    (parsed : parseRuns host output directory steps ri suites = some (ri',suites')) :
    (ri'.arch = ri.arch ∧ ri'.date = ri.date ∧ ri'.time = ri.time) ∧ Gains ri suites suites' := by
  induction steps generalizing ri suites with
  | nil =>
    cases parsed
    exact ⟨⟨rfl,rfl,rfl⟩,fun suite member run here => .inl ⟨suite,member,here⟩⟩
  | cons st steps ih =>
    simp only [parseRuns,Option.bind_eq_bind,Option.bind_eq_some_iff] at parsed
    obtain ⟨⟨next,more⟩,first,later⟩ := parsed
    obtain ⟨⟨arch,date,time⟩,gains⟩ := parseRun_some first
    obtain ⟨⟨arch',date',time'⟩,gains'⟩ := ih later
    refine ⟨⟨arch'.trans arch,date'.trans date,time'.trans time⟩,?_⟩
    intro suite member run here
    rcases gains' suite member run here with ⟨between,there,old⟩ | ⟨⟨ran,day⟩,start⟩
    · exact gains between there run old
    · exact .inr ⟨⟨ran.trans arch,day.trans date⟩,time.symm.trans start⟩

/-- Parsing an invocation keeps the collection consistent. -/
theorem parseInvocation_consistent {host : Host} {r r' : RegressHtml} {arch directory date : Str}
    (consistent : Consistent r) (parsed : parseInvocation host r arch directory date = some r') :
    Consistent r' := by
  simp only [parseInvocation,Option.bind_eq_bind,Option.bind_eq_some_iff] at parsed
  obtain ⟨text,_,stepFile,_,first,_,last,_,⟨ri,directories⟩,created,parsed⟩ := parsed
  split at parsed
  · cases parsed
  · simp only [Option.bind_eq_some_iff,Option.pure_def,Option.some.injEq] at parsed
    obtain ⟨⟨count,directories'⟩,copied,⟨ri',suites⟩,runs,rfl⟩ := parsed
    obtain ⟨_,absent,present,more⟩ := createRegressInvocation_some created
    have further := copyPatches_some copied
    obtain ⟨⟨sameArch,sameDate,sameTime⟩,gains⟩ := parseRuns_some runs
    have same : ri'.directory r.output = ri.directory r.output := by
      simp only [RegressInvocation.directory,sameArch,sameDate]
    refine ⟨?_,?_,?_⟩
    · intro other member
      rcases List.mem_append.mp member with earlier | new
      · exact further (more (consistent.created other earlier))
      · rw [List.mem_singleton.mp new,same]
        exact further present
    · rw [List.map_append,List.nodup_append]
      refine ⟨consistent.distinct,by simp,?_⟩
      intro path earlier path' new equal
      obtain ⟨other,member,rfl⟩ := List.mem_map.mp earlier
      rw [List.map_singleton,List.mem_singleton,same] at new
      have present' := consistent.created other member
      rw [equal,new] at present'
      exact absent present'
    · intro suite member run here
      rcases gains suite member run here with ⟨before,known,old⟩ | ⟨⟨ran,day⟩,start⟩
      · obtain ⟨other,there,from_⟩ := consistent.parsed before known run old
        exact ⟨other,List.mem_append_left _ there,from_⟩
      · exact ⟨ri',by simp,⟨ran.trans sameArch.symm,day.trans sameDate.symm⟩,sameTime.trans start⟩

/-- Comparing the durations changes neither the identities nor the times. -/
theorem compareDurations_map {α : Type} (f : RegressInvocation → α) (delta : ∀ ri d, f { ri with delta := d } = f ri)
    (invocations : List RegressInvocation) : (compareDurations invocations).map f = invocations.map f := by
  unfold compareDurations
  split
  · next ri before others shape =>
    have split : invocations = (ri :: before :: others).reverse := by rw [← shape,List.reverse_reverse]
    simp [split,delta]
  · rfl

theorem compareDurations_consistent {r : RegressHtml} (consistent : Consistent r) :
    Consistent { r with invocations := compareDurations r.invocations } := by
  have sameDirectories := compareDurations_map (RegressInvocation.directory r.output) (fun _ _ => rfl) r.invocations
  have sameRuns := compareDurations_map (fun ri => (ri.arch,ri.date,ri.time)) (fun _ _ => rfl) r.invocations
  refine ⟨?_,?_,?_⟩
  · intro ri member
    have there := List.mem_map_of_mem (f := RegressInvocation.directory r.output) member
    rw [sameDirectories] at there
    obtain ⟨other,known,same⟩ := List.mem_map.mp there
    rw [← same]
    exact consistent.created other known
  · rw [sameDirectories]
    exact consistent.distinct
  · intro suite member run here
    obtain ⟨ri,known,⟨arch,date⟩,time⟩ := consistent.parsed suite member run here
    have there := List.mem_map_of_mem (f := fun ri : RegressInvocation => (ri.arch,ri.date,ri.time)) known
    rw [← sameRuns] at there
    obtain ⟨other,known,same⟩ := List.mem_map.mp there
    obtain ⟨arch',date_time⟩ := Prod.mk.inj same
    obtain ⟨date',time'⟩ := Prod.mk.inj date_time
    exact ⟨other,known,⟨arch.trans arch'.symm,date.trans date'.symm⟩,time'.trans time⟩

theorem parseInvocations_consistent {host : Host} {arch : Str} {entries : List InvocationEntry}
    {ninvocations : Nat} {r r' : RegressHtml} (consistent : Consistent r)
    (parsed : parseInvocations host arch entries ninvocations r = some r') :
    Consistent r' := by
  induction entries generalizing ninvocations r with
  | nil =>
    cases parsed
    exact consistent
  | cons entry entries ih =>
    simp only [parseInvocations,Option.bind_eq_bind,Option.bind_eq_some_iff] at parsed
    obtain ⟨between,first,later⟩ := parsed
    have kept := parseInvocation_consistent consistent first
    refine ih ?_ later
    split
    · exact compareDurations_consistent kept
    · exact kept

/-- Sorting keeps the collection and puts it in order. -/
theorem regressHtmlParse_ordered {host : Host} {r r' : RegressHtml} {arch robsddir : Str} (consistent : Consistent r)
    (parsed : regressHtmlParse host r arch robsddir = some r') : Consistent r' ∧ Ordered r' := by
  simp only [regressHtmlParse,Option.bind_eq_bind,Option.bind_eq_some_iff,Option.pure_def,Option.some.injEq] at parsed
  obtain ⟨entries,_,between,invocations,rfl⟩ := parsed
  have kept := parseInvocations_consistent consistent invocations
  refine ⟨⟨?_,?_,?_⟩,⟨?_,?_⟩⟩
  · intro ri member
    exact kept.created ri ((Sorting.mem_sort _).mp member)
  · exact (((host.invocationSort.perm _).map _).nodup_iff).mpr kept.distinct
  · intro suite member run here
    obtain ⟨before,known,rfl⟩ := List.mem_map.mp member
    obtain ⟨ri,there,from_⟩ := kept.parsed before known run ((Sorting.mem_sort _).mp here)
    exact ⟨ri,(Sorting.mem_sort _).mpr there,from_⟩
  · exact (host.invocationSort.sorted _).imp OrderDual.toDual_le_toDual.mp
  · intro suite member
    obtain ⟨before,_,rfl⟩ := List.mem_map.mp member
    exact (host.runSort.sorted _).imp OrderDual.toDual_le_toDual.mp

/-- Whatever has been collected from the arguments is consistent and in order. -/
theorem parseArguments_ordered {host : Host} {arguments : List (Str × Str)} {r r' : RegressHtml}
    (consistent : Consistent r) (ordered : Ordered r) (parsed : parseArguments host arguments r = some r') :
    Consistent r' ∧ Ordered r' := by
  induction arguments generalizing r with
  | nil =>
    cases parsed
    exact ⟨consistent,ordered⟩
  | cons argument arguments ih =>
    obtain ⟨arch,robsddir⟩ := argument
    simp only [parseArguments,Option.bind_eq_bind,Option.bind_eq_some_iff] at parsed
    obtain ⟨between,first,later⟩ := parsed
    obtain ⟨kept,sorted⟩ := regressHtmlParse_ordered consistent first
    exact ih kept sorted later

theorem regressHtmlAlloc_consistent (output : Str) (directories : List Str) :
    Consistent (regressHtmlAlloc output directories) :=
  ⟨by simp [regressHtmlAlloc],by simp [regressHtmlAlloc],by simp [regressHtmlAlloc]⟩

theorem regressHtmlAlloc_ordered (output : Str) (directories : List Str) :
    Ordered (regressHtmlAlloc output directories) :=
  ⟨by simp [regressHtmlAlloc],by simp [regressHtmlAlloc]⟩

end Robsd.RegressRuns
