import Robsd.ConfigSteps
import Robsd.RegressRoundTrip

/-!
The list of steps of robsd-regress (conf-robsd-regress.c): the suites take the
place of the placeholder, first those that run in parallel and then the others.
-/
namespace Robsd.RegressSteps
open Robsd.Strings
open Robsd.Modes
open Robsd.Configuration
open Robsd.ConfigParse (regressname)
open Robsd.ConfigSteps

/-- A configuration with the given suites, some of which are not to run in parallel,
    and with suites in parallel at all or not, which is the default where nothing is said. -/
structure Configured (cf : Config) (regress : List Str) (noParallel : Str → Bool) (parallel : Bool) : Prop where
  mode : cf.mode = .robsdRegress
  regress : suites cf = regress
  flagged : ∀ suite, cf.value (regressname suite "parallel".toList) = if noParallel suite
    then some (.integer 0) else none
  parallel : (cf.value "parallel".toList).getD (.integer 1) = .integer (if parallel then 1 else 0)

/-- The system steps before and after the placeholder. -/
def before : List Script := (robsdRegressSteps.takeWhile (·.isSome)).filterMap id

def after : List Script := ((robsdRegressSteps.dropWhile (·.isSome)).drop 1).filterMap id

/-- A suite runs in parallel where suites do and it has no flag. -/
theorem isParallel_iff {cf : Config} {regress : List Str} {noParallel : Str → Bool} {parallel : Bool}
    (configured : Configured cf regress noParallel parallel) (host : Host) (suite : Str) :
    (isParallel host suite cf).1 = (parallel && !noParallel suite) := by
  have default : (configFindConstant host "parallel".toList cf) = some (.integer (if parallel then 1 else 0)) := by
    have table : configFindGrammarForInterpolation .robsdRegress "parallel".toList =
        some ⟨"parallel".toList,.integer,some .boolean,{},.i32 1⟩ := by decide
    have value := configured.parallel
    unfold configFindConstant
    rw [configured.mode,table]
    cases given : cf.value "parallel".toList with
    | none =>
      rw [given] at value
      simpa [constant] using value
    | some val =>
      rw [given] at value
      simpa using value
  simp only [isParallel,configValueInteger,configFind_parallel configured.mode,configFind_suiteParallel configured.mode,
    configured.flagged suite,default,integerField]
  cases parallel <;> cases noParallel suite <;> rfl

/-- The steps of suites. -/
def suiteSteps (regress : List Str) (parallel : Bool) : List ConfigStep :=
  regress.map fun suite => scriptStep ⟨suite,regressExec⟩ parallel

theorem suiteSteps_names (regress : List Str) (parallel : Bool) :
    (suiteSteps regress parallel).map (·.name) = regress := by
  rw [suiteSteps,List.map_map]
  exact List.map_id regress

theorem scriptSteps_names (scripts : List Script) :
    (scripts.map (scriptStep · false)).map (·.name) = scripts.map (·.name) := by
  rw [List.map_map]
  rfl

theorem getSteps_eq {cf : Config} {regress : List Str} {noParallel : Str → Bool} {parallel : Bool}
    (configured : Configured cf regress noParallel parallel) (host : Host) :
    configRobsdRegressGetSteps host cf =
      (before.map (scriptStep · false) ++ suiteSteps (regress.filter fun suite => parallel && !noParallel suite) true ++
        suiteSteps (regress.filter fun suite => !(parallel && !noParallel suite)) false ++
          after.map (scriptStep · false),cf) := by
  have steps : getSteps host cf = configRobsdRegressGetSteps host cf := by simp only [getSteps,configured.mode]
  rw [← steps,getSteps_regress configured.mode host]
  simp only [isParallel_iff configured host,configured.regress]
  rfl

/-- The steps of the system up to the placeholder, the suites that run in parallel,
    the other suites and the remaining steps of the system: every suite is there as
    often as it is configured, and no step of the system runs in parallel. -/
theorem getSteps_suites {cf : Config} {regress : List Str} {noParallel : Str → Bool} {parallel : Bool}
    (configured : Configured cf regress noParallel parallel) (host : Host) :
    configRobsdRegressGetSteps host cf =
      (before.map (scriptStep · false) ++ suiteSteps (regress.filter fun suite => parallel && !noParallel suite) true ++
        suiteSteps (regress.filter fun suite => !(parallel && !noParallel suite)) false ++
          after.map (scriptStep · false),cf) ∧
    ((configRobsdRegressGetSteps host cf).1.map (·.name)).Perm (before.map (·.name) ++ regress ++ after.map (·.name)) ∧
    ∀ cs ∈ (configRobsdRegressGetSteps host cf).1, cs.parallel = true → ∃ suite ∈ regress,
      cs = scriptStep ⟨suite,regressExec⟩ true := by
  have shape := getSteps_eq configured host
  refine ⟨shape,?_,?_⟩
  · have parted := List.filter_append_perm (fun suite => parallel && !noParallel suite) regress
    rw [shape]
    simp only [List.map_append,suiteSteps_names,scriptSteps_names]
    have placed := (parted.append_left (before.map (·.name))).append_right (after.map (·.name))
    simpa only [List.append_assoc] using placed
  · rw [shape]
    intro cs member flag
    simp only [suiteSteps,List.mem_append,List.mem_map,List.mem_filter] at member
    rcases member with ((⟨script,_,rfl⟩ | ⟨suite,⟨listed,_⟩,rfl⟩) | ⟨suite,_,rfl⟩) | ⟨script,_,rfl⟩
    · cases flag
    · exact ⟨suite,listed,rfl⟩
    · cases flag
    · cases flag

/-- Two suites that run in parallel around one that does not. -/
def alone : Str := "lib/libc".toList

def threeRegress : List Str := ["bin/csh".toList,alone,"bin/ksh".toList]

def threeSuites : Config :=
  { configAlloc .robsdRegress with
    vars := [("regress".toList,.list threeRegress),(regressname alone "parallel".toList,.integer 0)] }

theorem threeSuites_configured : Configured threeSuites threeRegress (· = alone) true := by
  refine ⟨rfl,rfl,?_,rfl⟩
  intro suite
  have other : "regress".toList ≠ regressname suite "parallel".toList :=
    fun same => RegressConfig.regressname_ne (by decide) same.symm
  have found : threeSuites.value (regressname suite "parallel".toList) =
      if regressname alone "parallel".toList = regressname suite "parallel".toList
        then some (.integer 0) else none := by
    have behind : ∀ vars : List (Str × Value), Bindings.first (regressname suite "parallel".toList)
        (("regress".toList,.list threeRegress) :: vars) = Bindings.first (regressname suite "parallel".toList)
          vars := fun vars => if_neg other
    exact behind _
  rw [found]
  by_cases same : suite = alone
  · rw [same,if_pos rfl,if_pos (decide_eq_true rfl)]
  · have apart : regressname alone "parallel".toList ≠ regressname suite "parallel".toList := by
      rw [Ne,RegressConfig.regressname_inj (by decide) (by decide)]
      intro both
      exact same both.1.symm
    rw [if_neg apart,if_neg fun flagged => same (of_decide_eq_true flagged)]

theorem getSteps_suites_three : ∃ host : Host, Configured threeSuites threeRegress (· = alone) true ∧
    ((configRobsdRegressGetSteps host threeSuites).1.map (·.name)).Perm
      (before.map (·.name) ++ threeRegress ++ after.map (·.name)) :=
  ⟨RegressRoundTrip.sampleHost,threeSuites_configured,(getSteps_suites threeSuites_configured _).2.1⟩

end Robsd.RegressSteps
