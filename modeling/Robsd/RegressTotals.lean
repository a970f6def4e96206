import Mathlib.Algebra.GroupWithZero.Nat
import Mathlib.Algebra.BigOperators.Group.List.Basic
import Robsd.RegressTable

/-!
The counters of robsd-regress-html: the totals of the invocations and those of
the suites count the same runs, and those of an invocation its steps.
-/
namespace Robsd.RegressTotals
open Robsd.Strings
open Robsd.Steps
open Robsd.Invocations (InvocationEntry invocationAlloc walkAll)
open Robsd.RegressRuns
open Robsd.RegressTable (arguments collected machines suiteFile testSuite)

/-- The invocations and the suites count the same runs and failures. -/
structure Balanced (invocations : List RegressInvocation) (suites : List Suite) : Prop where
  total : (invocations.map (·.total)).sum = (suites.map fun suite => suite.runs.length).sum
  fail : (invocations.map (·.fail)).sum = (suites.map (·.fail)).sum

/-- The steps that are counted: outside of the regress tree, pkg-add or with a slash in their name. -/
def Counted (st : Step) : Prop :=
  "../".toList <+: st.string .name ∨ st.string .name = "pkg-add".toList ∨ '/' ∈ st.string .name

instance : DecidablePred Counted := fun _ => inferInstanceAs (Decidable (_ ∨ _ ∨ _))

/-- The counters of an invocation are those of its steps. -/
structure Counts (steps : List Step) (ri : RegressInvocation) : Prop where
  total : ri.total = steps.countP fun st => Counted st
  fail : ri.fail = steps.countP fun st => Counted st ∧ st.integer .exit ≠ 0

/-- The invocation is one that was found below the directory of an argument, and its
    counters are those of the steps in its step file. -/
def Tallied (host : Host) (arguments : List (Str × Str)) (ri : RegressInvocation) : Prop :=
  ∃ robsddir directories entry text sf, (ri.arch,robsddir) ∈ arguments ∧
    invocationAlloc host.platform robsddir (below robsddir "attic".toList) (host.listing robsddir) .asc =
      some directories ∧
    entry ∈ walkAll directories ∧ entry.basename = ri.date ∧
    host.read (below entry.path "step.csv".toList) = some text ∧ stepsParse text = .ok sf ∧ Counts sf.steps ri

/-- The entries that are walked for the arguments, each with its architecture. -/
def walked (host : Host) : List (Str × Str) → Option (List (Str × InvocationEntry))
  | [] => some []
  | (arch,robsddir) :: arguments => do
    let directories ← invocationAlloc host.platform robsddir (below robsddir "attic".toList)
      (host.listing robsddir) .asc
    let others ← walked host arguments
    return ((walkAll directories).map fun entry => (arch,entry)) ++ others

/-- The steps of an invocation directory. -/
def stepsBelow (host : Host) (directory : Str) : Option (List Step) :=
  (host.read (below directory "step.csv".toList)).bind fun text => (stepsParse text).toOption.map StepFile.steps

/-- What is counted for a walked entry: the invocation and its counters. -/
def entryTally (host : Host) (walk : Str × InvocationEntry) : Str × Str × Nat × Nat :=
  let steps := (stepsBelow host walk.2.path).getD []
  (walk.1,walk.2.basename,steps.countP (fun st => Counted st),steps.countP fun st => Counted st ∧ st.integer .exit ≠ 0)

/-- The runs of a walked entry: the suite, the copy of the log and the exit code of
    each step that is counted. -/
def entryRuns (host : Host) (walk : Str × InvocationEntry) : List (Str × LogPath × Int64) :=
  (((stepsBelow host walk.2.path).getD []).filter fun st => Counted st).map fun st =>
    (st.string .name,⟨walk.1,walk.2.basename,st.string .log⟩,st.integer .exit)

def tally (ri : RegressInvocation) : Str × Str × Nat × Nat := (ri.arch,ri.date,ri.total,ri.fail)

/-- The runs of the suites, each with the name of its suite. -/
def suiteRuns (suites : List Suite) : List (Str × LogPath × Int64) :=
  suites.flatMap fun suite => suite.runs.map fun run => (suite.name,run.log,run.exit)

/-- Nothing but the walked entries is collected, and nothing of them is lost: each has
    its invocation, each of its steps that is counted its run in the one suite of its
    name, and a suite counts the runs whose exit code is not zero. -/
structure Complete (host : Host) (walks : List (Str × InvocationEntry)) (invocations : List RegressInvocation)
    (suites : List Suite) : Prop where
  invocations : (invocations.map tally).Perm (walks.map (entryTally host))
  runs : (suiteRuns suites).Perm (walks.flatMap (entryRuns host))
  names : (suites.map Suite.name).Nodup
  fails : ∀ suite ∈ suites, suite.fail = suite.runs.countP fun run => run.exit ≠ 0
  steps : ∀ walk ∈ walks, (stepsBelow host walk.2.path).isSome = true

theorem categorizeSuite_unknown (st : Step) : categorizeSuite (st.string .name) = .unknown ↔ ¬ Counted st := by
  unfold categorizeSuite Counted
  rw [← List.isPrefixOf_iff_prefix]
  split_ifs <;> simp_all

/-- A run is counted as a failure exactly if its exit code is not zero. -/
theorem parseRunLog_failure {host : Host} {output src : Str} {exit : Int64} {dst : LogPath} {status : RunStatus}
    (parsed : parseRunLog host output exit src dst = some status) : isRunStatusFailure status = true ↔ exit ≠ 0 := by
  unfold parseRunLog at parsed
  split at parsed
  · cases parsed
  · obtain ⟨_,same⟩ := Option.ite_none_right_eq_some.mp parsed
    rw [← Option.some.inj same]
    by_cases timeout : exit = exTimeout
    · rw [if_pos timeout,timeout]
      decide
    rw [if_neg timeout]
    by_cases failed : exit ≠ 0
    · rw [if_pos failed]
      split <;> simp [isRunStatusFailure,failed]
    · rw [if_neg failed]
      split_ifs <;> simp [isRunStatusFailure,failed]

/-! ## One step -/

theorem changeSuite_names {name : Str} {type : SuiteType} {change : Suite → Suite}
    (keeps : ∀ suite, (change suite).name = suite.name) (suites : List Suite) :
    (changeSuite name type change suites).map Suite.name =
      if name ∈ suites.map Suite.name then suites.map Suite.name else suites.map Suite.name ++ [name] := by
  induction suites with
  | nil => simp [changeSuite,keeps]
  | cons suite suites ih =>
    unfold changeSuite
    by_cases same : suite.name = name
    · simp [same,keeps]
    · rw [if_neg same,List.map_cons,ih,List.map_cons,apply_ite (suite.name :: ·)]
      simp [Ne.symm same]

/-- The suite of the name gains a run, and no other one. -/
theorem changeSuite_runs {name : Str} {type : SuiteType} {change : Suite → Suite} {run : Run}
    (keeps : ∀ suite, (change suite).name = suite.name)
    (adds : ∀ suite, (change suite).runs = suite.runs ++ [run]) (suites : List Suite) :
    (suiteRuns (changeSuite name type change suites)).Perm (suiteRuns suites ++ [(name,run.log,run.exit)]) := by
  induction suites with
  | nil => simp [changeSuite,suiteRuns,keeps,adds]
  | cons suite suites ih =>
    unfold changeSuite
    split
    · next same =>
      simp only [suiteRuns,List.flatMap_cons,keeps,adds,List.map_append,List.map_singleton,same,List.append_assoc]
      exact List.Perm.append_left _ List.perm_append_comm
    · simp only [suiteRuns,List.flatMap_cons,List.append_assoc]
      exact List.Perm.append_left _ ih

/-- What a step adds to the counters of its invocation and to the suites. -/
structure Gained (ri : RegressInvocation) (steps : List Step) (suites : List Suite) (ri' : RegressInvocation)
    (suites' : List Suite) : Prop where
  total : ri'.total = ri.total+steps.countP fun st => Counted st
  fail : ri'.fail = ri.fail+steps.countP fun st => Counted st ∧ st.integer .exit ≠ 0
  runs : (suiteRuns suites').Perm (suiteRuns suites ++ (steps.filter fun st => Counted st).map fun st =>
    (st.string .name,⟨ri.arch,ri.date,st.string .log⟩,st.integer .exit))
  names : (suites.map Suite.name).Nodup → (suites'.map Suite.name).Nodup
  fails : (∀ suite ∈ suites, suite.fail = suite.runs.countP fun run => run.exit ≠ 0) →
    ∀ suite ∈ suites', suite.fail = suite.runs.countP fun run => run.exit ≠ 0

/-- The suite of a step gains its run. -/
def gains (st : Step) (ri : RegressInvocation) (status : RunStatus) (suite : Suite) : Suite :=
  { suite with
    runs := suite.runs ++ [⟨⟨ri.arch,ri.date,st.string .log⟩,ri.time,st.integer .exit,status⟩]
    fail := suite.fail+if isRunStatusFailure status then 1 else 0 }

theorem parseRun_gained {host : Host} {output directory : Str} {st : Step} {ri ri' : RegressInvocation}
    {suites suites' : List Suite} (parsed : parseRun host output directory st ri suites = some (ri',suites')) :
    Gained ri [st] suites ri' suites' := by
  simp only [parseRun] at parsed
  by_cases counted : Counted st
  · rw [if_neg (by rw [categorizeSuite_unknown]; exact not_not_intro counted)] at parsed
    simp only [Option.bind_eq_bind,Option.bind_eq_some_iff,Option.pure_def,Option.some.injEq,Prod.mk.injEq] at parsed
    obtain ⟨status,log,rfl,shape⟩ := parsed
    have failure := parseRunLog_failure log
    have keeps : ∀ suite, (gains st ri status suite).name = suite.name := fun _ => rfl
    obtain rfl : changeSuite (st.string .name) (categorizeSuite (st.string .name)) (gains st ri status)
      suites = suites' := shape
    refine ⟨by simp [counted],?_,?_,?_,?_⟩
    · by_cases failed : st.integer .exit ≠ 0 <;> simp [counted,failure,failed]
    · rw [List.filter_cons_of_pos (by simpa using counted)]
      exact changeSuite_runs keeps (fun _ => rfl) suites
    · intro once
      rw [changeSuite_names keeps]
      split
      · exact once
      · next absent => exact List.nodup_append.mpr ⟨once,by simp,by simpa using absent⟩
    · intro before suite member
      rcases mem_changeSuite member with known | ⟨old,known,rfl⟩
      · exact before suite known
      · have old_fail : old.fail = old.runs.countP fun run => run.exit ≠ 0 := by
          rcases known with known | rfl
          · exact before old known
          · rfl
        by_cases failed : st.integer .exit ≠ 0 <;> simp [gains,old_fail,failure,failed]
  · rw [if_pos ((categorizeSuite_unknown st).mpr counted)] at parsed
    cases parsed
    exact ⟨by simp [counted],by simp [counted],by simp [counted],fun once => once,fun before => before⟩

/-! ## Runs of the loops -/

theorem parseRuns_gained {host : Host} {output directory : Str} {steps : List Step} {ri ri' : RegressInvocation}
    {suites suites' : List Suite} (parsed : parseRuns host output directory steps ri suites = some (ri',suites')) :
    Gained ri steps suites ri' suites' := by
  induction steps generalizing ri suites with
  | nil =>
    cases parsed
    exact ⟨rfl,rfl,by simp,fun once => once,fun before => before⟩
  | cons st steps ih =>
    simp only [parseRuns,Option.bind_eq_bind,Option.bind_eq_some_iff] at parsed
    obtain ⟨⟨next,more⟩,first,later⟩ := parsed
    dsimp only at later
    obtain ⟨⟨arch,date,_⟩,_⟩ := parseRun_some first
    have one := parseRun_gained first
    have others := ih later
    have split : st :: steps = [st] ++ steps := rfl
    refine ⟨?_,?_,?_,fun once => others.names (one.names once),fun before => others.fails (one.fails before)⟩
    · rw [split,List.countP_append,others.total,one.total,Nat.add_assoc]
    · rw [split,List.countP_append,others.fail,one.fail,Nat.add_assoc]
    · have runs := others.runs
      rw [arch,date] at runs
      rw [split,List.filter_append,List.map_append,← List.append_assoc]
      exact runs.trans (one.runs.append_right _)

/-- A walked entry has its invocation and its runs. -/
theorem parseInvocation_complete {host : Host} {walks : List (Str × InvocationEntry)} {r r' : RegressHtml} {arch : Str}
    {entry : InvocationEntry} (complete : Complete host walks r.invocations r.suites)
    (parsed : parseInvocation host r arch entry.path entry.basename = some r') :
    Complete host (walks ++ [(arch,entry)]) r'.invocations r'.suites := by
  simp only [parseInvocation,Option.bind_eq_bind,Option.bind_eq_some_iff] at parsed
  obtain ⟨text,read,stepFile,accepted,first,_,last,_,⟨ri,directories⟩,created,parsed⟩ := parsed
  split at parsed
  · cases parsed
  · simp only [Option.bind_eq_some_iff,Option.pure_def,Option.some.injEq] at parsed
    obtain ⟨⟨count,directories'⟩,_,⟨ri',suites⟩,runs,rfl⟩ := parsed
    obtain ⟨rfl,_⟩ := createRegressInvocation_some created
    obtain ⟨⟨sameArch,sameDate,_⟩,_⟩ := parseRuns_some runs
    have gained := parseRuns_gained runs
    have steps : stepsBelow host entry.path = some stepFile.steps := by
      rw [stepsBelow,read,Option.bind_some,accepted,Option.map_some]
    refine ⟨?_,?_,gained.names complete.names,gained.fails complete.fails,?_⟩
    · have new : tally ri' = entryTally host (arch,entry) := by
        simp [tally,entryTally,steps,sameArch,sameDate,gained.total,gained.fail]
      rw [List.map_append,List.map_append,List.map_singleton,List.map_singleton,new]
      exact complete.invocations.append_right _
    · rw [List.flatMap_append,List.flatMap_singleton]
      apply gained.runs.trans
      rw [entryRuns,steps]
      exact complete.runs.append_right _
    · intro walk member
      rcases List.mem_append.mp member with earlier | new
      · exact complete.steps walk earlier
      · rw [List.mem_singleton.mp new,steps,Option.isSome_some]

theorem parseInvocations_complete {host : Host} {arch : Str} {entries : List InvocationEntry} {ninvocations : Nat}
    {walks : List (Str × InvocationEntry)} {r r' : RegressHtml} (complete : Complete host walks r.invocations r.suites)
    (parsed : parseInvocations host arch entries ninvocations r = some r') :
    Complete host (walks ++ entries.map fun entry => (arch,entry)) r'.invocations r'.suites := by
  induction entries generalizing ninvocations walks r with
  | nil =>
    cases parsed
    simpa using complete
  | cons entry entries ih =>
    simp only [parseInvocations,Option.bind_eq_bind,Option.bind_eq_some_iff] at parsed
    obtain ⟨between,first,later⟩ := parsed
    have kept := parseInvocation_complete complete first
    rw [List.map_cons,← List.singleton_append,← List.append_assoc]
    refine ih ?_ later
    split
    · exact { kept with invocations := by rw [compareDurations_map tally fun _ _ => rfl]; exact kept.invocations }
    · exact kept

/-- Sorting loses nothing. -/
theorem regressHtmlParse_complete {host : Host} {walks : List (Str × InvocationEntry)} {r r' : RegressHtml}
    {arch robsddir : Str} (complete : Complete host walks r.invocations r.suites)
    (parsed : regressHtmlParse host r arch robsddir = some r') :
    ∃ directories, invocationAlloc host.platform robsddir (below robsddir "attic".toList) (host.listing robsddir) .asc =
      some directories ∧
      Complete host (walks ++ (walkAll directories).map fun entry => (arch,entry)) r'.invocations r'.suites := by
  simp only [regressHtmlParse,Option.bind_eq_bind,Option.bind_eq_some_iff,Option.pure_def,Option.some.injEq] at parsed
  obtain ⟨directories,listed,between,invocations,rfl⟩ := parsed
  have kept := parseInvocations_complete complete invocations
  refine ⟨directories,listed,((host.invocationSort.perm between.invocations).map tally).trans kept.invocations,
    ?_,?_,?_,kept.steps⟩
  · refine List.Perm.trans ?_ kept.runs
    rw [suiteRuns,List.flatMap_map]
    exact List.Perm.flatMap_left _ fun suite _ => (host.runSort.perm suite.runs).map _
  · rw [List.map_map]
    exact kept.names
  · intro suite member
    obtain ⟨before,known,rfl⟩ := List.mem_map.mp member
    exact (kept.fails before known).trans ((host.runSort.perm before.runs).countP_eq _).symm

theorem parseArguments_complete {host : Host} {arguments : List (Str × Str)}
    {walks : List (Str × InvocationEntry)} {r r' : RegressHtml}
    (complete : Complete host walks r.invocations r.suites)
    (parsed : parseArguments host arguments r = some r') :
    ∃ others, walked host arguments = some others ∧ Complete host (walks ++ others) r'.invocations r'.suites := by
  induction arguments generalizing walks r with
  | nil =>
    cases parsed
    exact ⟨[],rfl,by simpa using complete⟩
  | cons argument arguments ih =>
    obtain ⟨arch,robsddir⟩ := argument
    simp only [parseArguments,Option.bind_eq_bind,Option.bind_eq_some_iff] at parsed
    obtain ⟨between,first,later⟩ := parsed
    obtain ⟨directories,listed,kept⟩ := regressHtmlParse_complete complete first
    obtain ⟨others,found,all⟩ := ih kept later
    refine ⟨((walkAll directories).map fun entry => (arch,entry)) ++ others,?_,by rwa [List.append_assoc] at all⟩
    rw [walked,listed,found]
    rfl

/-! ## Totals -/

section
variable {host : Host} {walks : List (Str × InvocationEntry)} {invocations : List RegressInvocation}
  {suites : List Suite}
  (complete : Complete host walks invocations suites)
include complete

/-- What is complete is in balance: both sides count the steps of the walked entries. -/
theorem Complete.balanced : Balanced invocations suites := by
  constructor
  · calc (invocations.map (·.total)).sum = ((walks.map (entryTally host)).map (·.2.2.1)).sum := by
          rw [← (complete.invocations.map _).sum_eq,List.map_map]; rfl
      _ = (walks.flatMap (entryRuns host)).length := by
          simp [List.length_flatMap,entryRuns,entryTally,List.countP_eq_length_filter,Function.comp_def]
      _ = (suiteRuns suites).length := complete.runs.length_eq.symm
      _ = (suites.map fun suite => suite.runs.length).sum := by simp [suiteRuns,List.length_flatMap]
  · calc (invocations.map (·.fail)).sum = ((walks.map (entryTally host)).map (·.2.2.2)).sum := by
          rw [← (complete.invocations.map _).sum_eq,List.map_map]; rfl
      _ = (walks.flatMap (entryRuns host)).countP (fun run => run.2.2 ≠ 0) := by
          simp [List.countP_flatMap,entryRuns,entryTally,Function.comp_def,List.countP_map,
            List.countP_filter,Bool.and_comm]
      _ = (suiteRuns suites).countP (fun run => run.2.2 ≠ 0) := (complete.runs.countP_eq _).symm
      _ = (suites.map (·.fail)).sum := by
          rw [suiteRuns,List.countP_flatMap,List.map_congr_left complete.fails]
          simp [Function.comp_def,List.countP_map]

end

theorem mem_walked {host : Host} {arguments : List (Str × Str)} {walks : List (Str × InvocationEntry)}
    (found : walked host arguments = some walks) {arch : Str} {entry : InvocationEntry}
    (member : (arch,entry) ∈ walks) :
    ∃ robsddir directories, (arch,robsddir) ∈ arguments ∧
      invocationAlloc host.platform robsddir (below robsddir "attic".toList) (host.listing robsddir) .asc =
        some directories ∧
      entry ∈ walkAll directories := by
  induction arguments generalizing walks with
  | nil =>
    cases found
    cases member
  | cons argument arguments ih =>
    simp only [walked,Option.bind_eq_bind,Option.bind_eq_some_iff,Option.pure_def,Option.some.injEq] at found
    obtain ⟨directories,listed,others,later,rfl⟩ := found
    rcases List.mem_append.mp member with here | there
    · obtain ⟨_,walk,same⟩ := List.mem_map.mp here
      obtain ⟨rfl,rfl⟩ := Prod.mk.inj same
      exact ⟨_,directories,List.mem_cons_self,listed,walk⟩
    · obtain ⟨robsddir,directories,argument,rest⟩ := ih later there
      exact ⟨robsddir,directories,List.mem_cons_of_mem _ argument,rest⟩

theorem Complete.tallied {host : Host} {arguments : List (Str × Str)} {walks : List (Str × InvocationEntry)}
    {invocations : List RegressInvocation} {suites : List Suite}
    (complete : Complete host walks invocations suites) (found : walked host arguments = some walks)
    {ri : RegressInvocation} (member : ri ∈ invocations) :
    Tallied host arguments ri := by
  obtain ⟨⟨arch,entry⟩,walk,same⟩ := List.mem_map.mp (complete.invocations.subset (List.mem_map_of_mem member))
  obtain ⟨robsddir,directories,argument,listed,entries⟩ := mem_walked found walk
  obtain ⟨steps,below_⟩ := Option.isSome_iff_exists.mp (complete.steps _ walk)
  simp only [tally,entryTally,below_,Option.getD_some,Prod.mk.injEq] at same
  obtain ⟨rfl,date,total,fail⟩ := same
  obtain ⟨text,read,accepted⟩ := Option.bind_eq_some_iff.mp below_
  obtain ⟨sf,parsed,rfl⟩ := Option.map_eq_some_iff.mp accepted
  refine ⟨robsddir,directories,entry,text,sf,argument,listed,entries,date,read,?_,⟨total.symm,fail.symm⟩⟩
  cases parse : stepsParse text with
  | error e =>
    rw [parse] at parsed
    cases parsed
  | ok sf' =>
    rw [parse] at parsed
    rw [Option.some.inj parsed]

/-- Whatever is collected from the arguments is in balance, the counters of each
    invocation are those of its steps, and nothing that was walked is left out. -/
theorem regress_html_balanced {host : Host} {output : Str} {directories : List Str}
    {arguments : List (Str × Str)} {r : RegressHtml}
    (parsed : parseArguments host arguments (regressHtmlAlloc output directories) = some r) :
    Balanced r.invocations r.suites ∧ (∀ ri ∈ r.invocations, Tallied host arguments ri) ∧
      ∃ walks, walked host arguments = some walks ∧ Complete host walks r.invocations r.suites := by
  have none : Complete host [] (regressHtmlAlloc output directories).invocations
    (regressHtmlAlloc output directories).suites :=
    ⟨.nil,.nil,.nil,by simp [regressHtmlAlloc],by simp⟩
  obtain ⟨walks,found,complete⟩ := parseArguments_complete none parsed
  rw [List.nil_append] at complete
  exact ⟨complete.balanced,fun _ => complete.tallied found,walks,found,complete⟩

/-- Two machines on which the suite passes and fails. -/
def passesAndFails : Host :=
  machines (suiteFile (testSuite "200") "200") (suiteFile "2,test/pass,1,1,pass.log,root,100\n" "100")

theorem regress_html_balanced_sample :
    ∃ r, parseArguments passesAndFails arguments (regressHtmlAlloc "html".toList []) = some r ∧
    (r.invocations.map tally = [("amd64".toList,"2022-10-25.1".toList,1,0),("arm64".toList,"2022-10-25.1".toList,1,1)] ∧
      r.suites.map (fun suite => (suite.name,suite.runs.length,suite.fail)) = [("test/pass".toList,2,1)]) ∧
    Balanced r.invocations r.suites ∧ (∀ ri ∈ r.invocations, Tallied passesAndFails arguments ri) ∧
      ∃ walks, walked passesAndFails arguments = some walks ∧ Complete passesAndFails walks r.invocations r.suites := by
  have totals : (parseArguments passesAndFails arguments (regressHtmlAlloc "html".toList [])).any fun r => decide
      (r.invocations.map tally = [("amd64".toList,"2022-10-25.1".toList,1,0),
        ("arm64".toList,"2022-10-25.1".toList,1,1)] ∧
        r.suites.map (fun suite => (suite.name,suite.runs.length,suite.fail)) = [("test/pass".toList,2,1)]) := by
          decide +kernel
  obtain ⟨r,parsed,totals⟩ := (Option.any_eq_true _ _).mp totals
  exact ⟨r,parsed,of_decide_eq_true totals,regress_html_balanced parsed⟩

end Robsd.RegressTotals
