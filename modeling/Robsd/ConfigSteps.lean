import Robsd.RegressConfig

/-!
The lists of steps (conf.c, the conf files of the modes): the tables behind
`get_steps`, the interpolation of the commands by `config_get_steps`, how
robsd-step lists the steps and how robsd-exec finds one (step-exec.c).
-/
namespace Robsd.ConfigSteps
open Robsd.Strings
open Robsd.Modes
open Robsd.Bindings
open Robsd.Configuration
open Robsd.ConfigParse (regressname)
open Robsd.RegressConfig (configFindGrammarForInterpolation_suite)
open Robsd.Decimal (decimal)
open Robsd.Interpolate
universe u
variable {σ τ : Type u}

/-! ## Tables -/

/-- An element of the tables of steps, the command being `command.path`. -/
structure Script where
  name : Str
  path : Str
  deriving DecidableEq

/-- A step whose script is in `${exec-dir}`. -/
def script (name path : String) : Script := ⟨name.toList,("$\x7bexec-dir\x7d/" ++ path).toList⟩

/-- The step every table ends with. -/
def endStep : Script := ⟨"end".toList,"/dev/null".toList⟩

def robsdSteps : List Script := [
  script "env" "robsd-env.sh",
  script "cvs" "robsd-cvs.sh",
  script "patch" "robsd-patch.sh",
  script "kernel" "robsd-kernel.sh",
  script "reboot" "robsd-reboot.sh",
  script "env" "robsd-env.sh",
  script "base" "robsd-base.sh",
  script "release" "robsd-release.sh",
  script "checkflist" "robsd-checkflist.sh",
  script "xbase" "robsd-xbase.sh",
  script "xrelease" "robsd-xrelease.sh",
  script "image" "robsd-image.sh",
  script "hash" "robsd-hash.sh",
  script "revert" "robsd-revert.sh",
  script "distrib" "robsd-distrib.sh",
  script "dmesg" "robsd-dmesg.sh",
  endStep]

def robsdCrossSteps : List Script := [
  script "env" "robsd-env.sh",
  script "dirs" "robsd-cross-dirs.sh",
  script "tools" "robsd-cross-tools.sh",
  script "distrib" "robsd-cross-distrib.sh",
  script "dmesg" "robsd-dmesg.sh",
  endStep]

def robsdPortsSteps : List Script := [
  script "env" "robsd-env.sh",
  script "cvs" "robsd-cvs.sh",
  script "clean" "robsd-ports-clean.sh",
  script "proot" "robsd-ports-proot.sh",
  script "patch" "robsd-patch.sh",
  script "dpb" "robsd-ports-dpb.sh",
  script "distrib" "robsd-ports-distrib.sh",
  script "revert" "robsd-revert.sh",
  script "dmesg" "robsd-dmesg.sh",
  endStep]

/-- The placeholder for `${regress}` has no name. -/
def robsdRegressSteps : List (Option Script) := [
  some (script "env" "robsd-env.sh"),
  some (script "pkg-add" "robsd-regress-pkg-add.sh"),
  some (script "cvs" "robsd-cvs.sh"),
  some (script "patch" "robsd-patch.sh"),
  some (script "obj" "robsd-regress-obj.sh"),
  some (script "mount" "robsd-regress-mount.sh"),
  none,
  some (script "umount" "robsd-regress-umount.sh"),
  some (script "revert" "robsd-revert.sh"),
  some (script "pkg-del" "robsd-regress-pkg-del.sh"),
  some (script "dmesg" "robsd-dmesg.sh"),
  some endStep]

/-- The script of the suites. -/
def regressExec : Str := "$\x7bexec-dir\x7d/robsd-regress-exec.sh".toList

/-! ## Lists of steps -/

/-- The field `integer` of a value that was found. Values of another type, whose
    bytes would be taken, have the fallback here. -/
def integerField (fallback : Int) : Option Value → Int
  | some (.integer n) => n
  | _ => fallback

/-- The field `list` of a value that was found, likewise. -/
def listField : Option Value → List Str
  | some (.list xs) => xs
  | _ => []

/-- `config_value` of an integer. -/
def configValueInteger (host : Host) (name : Str) (fallback : Int) (cf : Config) : Int × Config :=
  (integerField fallback (configFind host name cf).1,(configFind host name cf).2)

/-- `config_value` of a list. -/
def configValueList (host : Host) (name : Str) (cf : Config) : List Str × Config :=
  (listField (configFind host name cf).1,(configFind host name cf).2)

/-- `is_parallel`. -/
def isParallel (host : Host) (stepName : Str) (cf : Config) : Bool × Config :=
  let all := configValueInteger host "parallel".toList 1 cf
  if all.1 = 0 then (false,all.2)
  else
    let own := configValueInteger host (regressname stepName "parallel".toList) 1 all.2
    (own.1 ≠ 0,own.2)

/-- The loops that include scripts of a table. -/
def addScripts (steps : List ConfigStep) (scripts : List Script) : List ConfigStep :=
  scripts.foldl (fun steps cs => configStepsAddScript steps cs.path cs.name false) steps

/-- The loop of `config_robsd_regress_get_steps` over the suites: those that run
    in parallel are included, the others are put aside. -/
def parallelSteps (host : Host) : List Str → List ConfigStep → List Str → Config → (List ConfigStep × List Str) × Config
  | [],steps,regressNoParallel,cf => ((steps,regressNoParallel),cf)
  | suite :: regress,steps,regressNoParallel,cf =>
    let parallel := isParallel host suite cf
    if parallel.1 then
      parallelSteps host regress (configStepsAddScript steps regressExec suite true) regressNoParallel parallel.2
    else parallelSteps host regress steps (regressNoParallel ++ [suite]) parallel.2

/-- `config_robsd_regress_get_steps`. -/
def configRobsdRegressGetSteps (host : Host) (cf : Config) : List ConfigStep × Config :=
  let regress := configValueList host "regress".toList cf
  let steps := addScripts [] ((robsdRegressSteps.takeWhile (·.isSome)).filterMap id)
  let suites := parallelSteps host regress.1 steps [] regress.2
  let steps := addScripts suites.1.1 (suites.1.2.map fun suite => ⟨suite,regressExec⟩)
  (addScripts steps (((robsdRegressSteps.dropWhile (·.isSome)).drop 1).filterMap id),suites.2)

/-- The callback `get_steps`, which is `config_default_get_steps` where the list
    is a table. -/
def getSteps (host : Host) (cf : Config) : List ConfigStep × Config :=
  match cf.mode with
  | .robsd => (addScripts [] robsdSteps,cf)
  | .robsdCross => (addScripts [] robsdCrossSteps,cf)
  | .robsdPorts => (addScripts [] robsdPortsSteps,cf)
  | .robsdRegress => configRobsdRegressGetSteps host cf
  | .canvas => (cf.canvasSteps,cf)

/-! ## Commands -/

/-- The loop of `config_get_steps` over the arguments of a command, which leaves
    out those that are empty. -/
def interpolateArgs (lookup : Lookup σ) : List Str → σ → Option (List Str) × σ
  | [],s => (some [],s)
  | arg :: args,s =>
    match interpolateStr lookup false arg s with
    | (.error _,s) => (none,s)
    | (.ok out,s) =>
      let rest := interpolateArgs lookup args s
      (rest.1.map fun xs => if out = [] then xs else out :: xs,rest.2)

/-- The loop of `config_get_steps` over the steps. -/
def interpolateSteps (lookup : Lookup σ) : List ConfigStep → σ → Option (List ConfigStep) × σ
  | [],s => (some [],s)
  | cs :: steps,s =>
    match interpolateArgs lookup cs.command s with
    | (none,s) => (none,s)
    | (some command,s) =>
      let rest := interpolateSteps lookup steps s
      (rest.1.map ({ cs with command := command } :: ·),rest.2)

/-- `config_get_steps`, with `trace` for the flag `CONFIG_STEPS_TRACE_COMMAND`. -/
def configGetSteps (host : Host) (trace : Bool) (cf : Config) : Option (List ConfigStep) × Config :=
  let listed := getSteps host { cf with trace := trace }
  let out := interpolateSteps (configInterpolateLookup host) listed.1 listed.2
  (out.1,{ out.2 with trace := false })

/-- `find_step` on the list it obtains. -/
def findStep (steps : List ConfigStep) (stepName : Str) : Option ConfigStep := steps.find? (·.name = stepName)

/-- `resolve_step_command`. -/
def resolveStepCommand (host : Host) (trace : Bool) (stepName : Str) (cf : Config) : Option (List Str) :=
  ((configGetSteps host trace cf).1.bind fun steps => findStep steps stepName).map (·.command)

/-- A line of `steps_list`. -/
def stepsLine (i : Nat) (cs : ConfigStep) : Str :=
  decimal (i+1) ++ ' ' :: cs.name ++ if cs.parallel then " parallel".toList else []

/-- `steps_list` from the given offset on, which is positive. -/
def stepsList (host : Host) (offset : Nat) (cf : Config) : Option (List Str) :=
  (configGetSteps host false cf).1.bind fun steps =>
    if steps.length ≤ offset-1 then none else some ((steps.mapIdx stepsLine).drop (offset-1))

/-! ## What the lists consist of -/

/-- A step that executes a script. -/
def scriptStep (cs : Script) (parallel : Bool) : ConfigStep :=
  ⟨cs.name,["sh".toList,"-eu".toList,"$\x7btrace\x7d".toList,cs.path,cs.name],parallel⟩

theorem configStepsAddScript_eq (steps : List ConfigStep) (cs : Script) (parallel : Bool) :
    configStepsAddScript steps cs.path cs.name parallel = steps ++ [scriptStep cs parallel] := rfl

theorem addScripts_eq (steps : List ConfigStep) (scripts : List Script) :
    addScripts steps scripts = steps ++ scripts.map (scriptStep · false) := by
  unfold addScripts
  induction scripts generalizing steps with
  | nil => simp
  | cons cs scripts ih => rw [List.foldl_cons,ih,configStepsAddScript_eq]; simp

/-- The steps of robsd-regress other than the suites. -/
def systemScripts : List Script := robsdRegressSteps.filterMap id

/-- The suites of a configuration. -/
def suites (cf : Config) : List Str := listField (cf.value "regress".toList)

section
variable {cf : Config} (mode : cf.mode = .robsdRegress)
include mode

theorem configFind_parallel (host : Host) :
    configFind host "parallel".toList cf = (configFindConstant host "parallel".toList cf,cf) := by
  have table : configFindGrammarForInterpolation .robsdRegress "parallel".toList =
      some ⟨"parallel".toList,.integer,some .boolean,{},.i32 1⟩ := by decide
  cases there : cf.value "parallel".toList with
  | some val => rw [configFind_present there,configFindConstant,there]; rfl
  | none => rw [configFind_absent there,configFindConstant,there,mode,table]; rfl

theorem configFind_suiteParallel (host : Host) (suite : Str) :
    configFind host (regressname suite "parallel".toList) cf =
      ((cf.value (regressname suite "parallel".toList)).or (configFindConstant host "parallel".toList cf),cf) := by
  have table : configFindGrammarForInterpolation .robsdRegress (regressname suite "parallel".toList) =
      some ⟨"regress-*-parallel".toList,.integer,none,{ pat := true },.fn .parallel⟩ :=
    (configFindGrammarForInterpolation_suite suite (by decide)).trans (by decide)
  cases there : cf.value (regressname suite "parallel".toList) with
  | some val => rw [configFind_present there]; rfl
  | none => rw [configFind_absent there,mode,table]; rfl

/-- Whether suites run in parallel is found out without a change. -/
theorem isParallel_state (host : Host) (suite : Str) : (isParallel host suite cf).2 = cf := by
  simp only [isParallel,configValueInteger,configFind_parallel mode,configFind_suiteParallel mode]
  split <;> rfl

theorem isParallel_trace (host : Host) (suite : Str) (trace : Bool) :
    (isParallel host suite { cf with trace := trace }).1 = (isParallel host suite cf).1 := by
  have traced : { cf with trace := trace }.mode = .robsdRegress := mode
  simp only [isParallel,configValueInteger,configFind_parallel mode,configFind_suiteParallel mode,
    configFind_parallel traced,configFind_suiteParallel traced]
  rw [apply_ite Prod.fst,apply_ite Prod.fst]
  rfl

theorem configValueList_regress (host : Host) : configValueList host "regress".toList cf = (suites cf,cf) := by
  have table : configFindGrammarForInterpolation .robsdRegress "regress".toList =
      some ⟨"regress".toList,.list,some .regress,{ req := true, rep := true },.null⟩ := by decide
  unfold configValueList suites
  cases there : cf.value "regress".toList with
  | some val => rw [configFind_present there]
  | none => rw [configFind_absent there,mode,table]; rfl

/-- The suites come as they are parted, all with the script for suites. -/
theorem parallelSteps_eq (host : Host) (regress : List Str) (steps : List ConfigStep) (aside : List Str) :
    parallelSteps host regress steps aside cf =
      ((steps ++ (regress.filter fun suite => (isParallel host suite cf).1).map fun suite =>
          scriptStep ⟨suite,regressExec⟩ true,
        aside ++ regress.filter fun suite => !(isParallel host suite cf).1),cf) := by
  induction regress generalizing steps aside with
  | nil => simp [parallelSteps]
  | cons suite regress ih =>
    rw [parallelSteps]
    cases parallel : (isParallel host suite cf).1 with
    | true =>
      simp only [↓reduceIte,isParallel_state mode]
      rw [ih,configStepsAddScript_eq _ ⟨suite,regressExec⟩]
      simp [parallel]
    | false =>
      simp only [Bool.false_eq_true,↓reduceIte,isParallel_state mode]
      rw [ih]
      simp [parallel]

theorem getSteps_regress (host : Host) :
    getSteps host cf =
      (((robsdRegressSteps.takeWhile (·.isSome)).filterMap id).map (scriptStep · false) ++
        ((suites cf).filter fun suite => (isParallel host suite cf).1).map
          (fun suite => scriptStep ⟨suite,regressExec⟩ true) ++
        ((suites cf).filter fun suite => !(isParallel host suite cf).1).map
          (fun suite => scriptStep ⟨suite,regressExec⟩ false) ++
        (((robsdRegressSteps.dropWhile (·.isSome)).drop 1).filterMap id).map (scriptStep · false),cf) := by
  simp only [getSteps,mode,configRobsdRegressGetSteps,configValueList_regress mode,parallelSteps_eq mode,addScripts_eq,
    List.nil_append,List.map_map,List.append_assoc]
  rfl

/-- The steps of robsd-regress are those of the system and one for every suite. -/
theorem mem_getSteps_regress (host : Host) (cs : ConfigStep) :
    cs ∈ (getSteps host cf).1 ↔ (∃ script ∈ systemScripts, cs = scriptStep script false) ∨
      ∃ suite ∈ suites cf, cs = scriptStep ⟨suite,regressExec⟩ (isParallel host suite cf).1 := by
  have parted : systemScripts = (robsdRegressSteps.takeWhile (·.isSome)).filterMap id ++
      ((robsdRegressSteps.dropWhile (·.isSome)).drop 1).filterMap id := by decide +kernel
  simp only [getSteps_regress mode,List.mem_append,List.mem_map,List.mem_filter,parted]
  constructor
  · rintro (((⟨script,member,rfl⟩ | ⟨suite,⟨member,parallel⟩,rfl⟩) | ⟨suite,⟨member,parallel⟩,rfl⟩) | ⟨script,
      member,rfl⟩)
    · exact .inl ⟨script,.inl member,rfl⟩
    · exact .inr ⟨suite,member,by rw [parallel]⟩
    · exact .inr ⟨suite,member,by simp only [Bool.not_eq_true'] at parallel; rw [parallel]⟩
    · exact .inl ⟨script,.inr member,rfl⟩
  · rintro (⟨script,member | member,rfl⟩ | ⟨suite,member,rfl⟩)
    · exact .inl (.inl (.inl ⟨script,member,rfl⟩))
    · exact .inr ⟨script,member,rfl⟩
    · cases parallel : (isParallel host suite cf).1 with
      | true => exact .inl (.inl (.inr ⟨suite,⟨member,parallel⟩,rfl⟩))
      | false => exact .inl (.inr ⟨suite,⟨member,by simp [parallel]⟩,rfl⟩)

end

/-- No list of steps costs a change of the configuration. -/
theorem getSteps_state (host : Host) (cf : Config) : (getSteps host cf).2 = cf := by
  cases mode : cf.mode with
  | robsdRegress => rw [getSteps_regress mode]
  | _ => simp [getSteps,mode]

/-- Tracing does not change the list of steps. -/
theorem getSteps_trace (host : Host) (cf : Config) (trace : Bool) :
    (getSteps host { cf with trace := trace }).1 = (getSteps host cf).1 := by
  by_cases mode : cf.mode = .robsdRegress
  · have traced : { cf with trace := trace }.mode = .robsdRegress := mode
    rw [getSteps_regress mode,getSteps_regress traced]
    simp only [isParallel_trace mode]
    rfl
  · unfold getSteps
    split <;> simp_all

/-! ## Runs over the steps -/

/-- The steps, each with the state its command is interpolated from. -/
def turns (lookup : Lookup σ) : List ConfigStep → σ → List (ConfigStep × σ)
  | [],_ => []
  | cs :: steps,s => (cs,s) :: turns lookup steps (interpolateArgs lookup cs.command s).2

theorem turns_steps (lookup : Lookup σ) (steps : List ConfigStep) (s : σ) :
    (turns lookup steps s).map (·.1) = steps := by
  induction steps generalizing s with
  | nil => rfl
  | cons cs steps ih => simp [turns,ih]

/-- What the command of a step is interpolated to at a turn. -/
def commandAt (lookup : Lookup σ) (turn : ConfigStep × σ) : Option (List Str) :=
  (interpolateArgs lookup turn.1.command turn.2).1

/-- The names of the steps and what their commands are interpolated to. -/
def answers (lookup : Lookup σ) (steps : List ConfigStep) (s : σ) : List (Str × Option (List Str)) :=
  (turns lookup steps s).map fun turn => (turn.1.name,commandAt lookup turn)

/-- A list that is returned has the answers of all turns. -/
theorem interpolateSteps_answers {lookup : Lookup σ} {steps out : List ConfigStep} {s : σ}
    (run : (interpolateSteps lookup steps s).1 = some out) :
    answers lookup steps s = out.map fun cs => (cs.name,some cs.command) := by
  induction steps generalizing s out with
  | nil =>
    cases run
    rfl
  | cons cs steps ih =>
    simp only [interpolateSteps] at run
    split at run
    · cases run
    · next command s' args =>
      obtain ⟨rest,later,rfl⟩ := Option.map_eq_some_iff.mp run
      have tail := ih later
      simp only [answers] at tail
      simp only [answers,turns,List.map_cons,commandAt,args]
      exact congrArg _ tail

section
variable {R : σ → τ → Prop} {lookup : Lookup σ} {lookup' : Lookup τ}
  (looks : ∀ name s t, R s t → (lookup name s).1 = (lookup' name t).1 ∧ R (lookup name s).2 (lookup' name t).2)
include looks

theorem interpolateArgs_simulates (args : List Str) {s : σ} {t : τ} (related : R s t) :
    (interpolateArgs lookup args s).1 = (interpolateArgs lookup' args t).1 ∧
      R (interpolateArgs lookup args s).2 (interpolateArgs lookup' args t).2 := by
  induction args generalizing s t with
  | nil => exact ⟨rfl,related⟩
  | cons arg args ih =>
    obtain ⟨answer,kept⟩ := interpolateStr_simulates looks false arg related
    simp only [interpolateArgs]
    cases run : interpolateStr lookup false arg s with
    | mk out s' =>
      cases run' : interpolateStr lookup' false arg t with
      | mk out' t' =>
        rw [run,run'] at answer kept
        dsimp only at answer kept
        subst answer
        cases out with
        | error e => exact ⟨rfl,kept⟩
        | ok text =>
          obtain ⟨same,after⟩ := ih kept
          exact ⟨by simp only [same],after⟩

/-- Lookups with the same answers interpolate the commands alike. -/
theorem answers_simulates (steps : List ConfigStep) {s : σ} {t : τ} (related : R s t) :
    answers lookup steps s = answers lookup' steps t := by
  induction steps generalizing s t with
  | nil => rfl
  | cons cs steps ih =>
    obtain ⟨same,kept⟩ := interpolateArgs_simulates looks cs.command related
    have tail := ih kept
    simp only [answers] at tail
    simp only [answers,turns,List.map_cons,commandAt,same]
    exact congrArg _ tail

end

end Robsd.ConfigSteps
