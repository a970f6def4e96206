import Robsd.ConfigSteps
import Robsd.LookupMemo
import Robsd.RegressRoundTrip

/-!
The step that is listed and the one that is executed for it. robsd-step lists
the names of the steps, robsd-exec takes the first step of the name it is given;
`listed_agrees_iff` says for each mode when that step has the command of the one
listed.
-/
namespace Robsd.ListedSteps
open Robsd.Strings
open Robsd.Modes
open Robsd.Configuration
open Robsd.ConfigParse
open Robsd.ConfigSteps
open Robsd.LookupMemo
open Robsd.Interpolate
open Robsd.RegressRoundTrip (sampleHost)
universe u
variable {σ : Type u}

/-- The configuration that `config_get_steps` interpolates with. -/
def traced (cf : Config) (trace : Bool) : Config := { cf with trace := trace }

/-- Every step of the list is resolved to its own command by its name. -/
def ListedAgrees (host : Host) (trace : Bool) (cf : Config) : Prop :=
  ∀ steps, (configGetSteps host trace cf).1 = some steps →
    ∀ (i : Nat) (cs : ConfigStep), steps[i]? = some cs → resolveStepCommand host trace cs.name cf = some cs.command

/-! ## The list -/

theorem configGetSteps_eq (host : Host) (trace : Bool) (cf : Config) :
    (configGetSteps host trace cf).1 =
      (interpolateSteps (configInterpolateLookup host) (getSteps host (traced cf trace)).1 (traced cf trace)).1 := by
  simp only [configGetSteps,traced,getSteps_state]

/-- A list of steps keeps the names and the parallel flags of what is listed. -/
theorem interpolateSteps_listed {lookup : Lookup σ} {steps out : List ConfigStep} {s : σ}
    (run : (interpolateSteps lookup steps s).1 = some out) :
    out.map (fun cs => (cs.name,cs.parallel)) = steps.map fun cs => (cs.name,cs.parallel) := by
  induction steps generalizing s out with
  | nil =>
    cases run
    rfl
  | cons cs steps ih =>
    simp only [interpolateSteps] at run
    split at run
    · cases run
    · obtain ⟨rest,later,rfl⟩ := Option.map_eq_some_iff.mp run
      simp only [List.map_cons,ih later]

/-- robsd-step lists the steps that robsd-exec looks through, traced or not. -/
theorem stepsList_lines {host : Host} {trace : Bool} {cf : Config} {steps : List ConfigStep} {offset : Nat}
    {lines : List Str} (got : (configGetSteps host trace cf).1 = some steps)
    (listed : stepsList host offset cf = some lines) :
    lines = (steps.mapIdx stepsLine).drop (offset-1) := by
  obtain ⟨steps',got',printed⟩ := Option.bind_eq_some_iff.mp listed
  rw [configGetSteps_eq,traced,getSteps_trace] at got got'
  have same : steps'.map (fun cs => (cs.name,cs.parallel)) = steps.map fun cs => (cs.name,cs.parallel) :=
    (interpolateSteps_listed got').trans (interpolateSteps_listed got).symm
  have line : ∀ steps : List ConfigStep, steps.mapIdx stepsLine =
      (steps.map fun cs => (cs.name,cs.parallel)).mapIdx fun i fields => stepsLine i ⟨fields.1,[],fields.2⟩ := by
    intro steps
    apply List.ext_getElem (by simp)
    intro i _ _
    simp only [List.getElem_mapIdx,List.getElem_map]
    rfl
  split at printed
  · cases printed
  · cases printed
    rw [line steps',line steps,same]

/-! ## Equal names -/

/-- Turns at steps of one name give one command. -/
def Agreeing (lookup : Lookup σ) (steps : List ConfigStep) (s : σ) : Prop :=
  ∀ a ∈ answers lookup steps s, ∀ b ∈ answers lookup steps s, a.1 = b.1 → a.2 = b.2

theorem find_first {steps : List ConfigStep} {cs : ConfigStep} (member : cs ∈ steps) :
    ∃ first ∈ steps, findStep steps cs.name = some first ∧ first.name = cs.name := by
  cases found : findStep steps cs.name with
  | none => exact absurd (decide_eq_true rfl) (List.find?_eq_none.mp found cs member)
  | some first => exact ⟨first,List.mem_of_find?_eq_some found,rfl,of_decide_eq_true (List.find?_some found :)⟩

/-- Listed and executed steps agree when equal names go with equal commands. -/
theorem listedAgrees_iff {host : Host} {trace : Bool} {cf : Config} {steps : List ConfigStep}
    (got : (configGetSteps host trace cf).1 = some steps) :
    ListedAgrees host trace cf ↔
      Agreeing (configInterpolateLookup host) (getSteps host (traced cf trace)).1 (traced cf trace) := by
  have resolve : ∀ name, resolveStepCommand host trace name cf = (findStep steps name).map (·.command) := by
    intro name
    simp only [resolveStepCommand,got,Option.bind_some]
  have rows := interpolateSteps_answers ((configGetSteps_eq host trace cf).symm.trans got)
  unfold Agreeing
  rw [rows]
  simp only [List.forall_mem_map,Option.some.injEq]
  constructor
  · intro agrees a here b there same
    obtain ⟨first,member,found,named⟩ := find_first here
    obtain ⟨i,at_⟩ := List.mem_iff_getElem?.mp here
    obtain ⟨j,at'⟩ := List.mem_iff_getElem?.mp there
    have one := agrees steps got i a at_
    have two := agrees steps got j b at'
    rw [resolve] at one two
    rw [same] at one
    exact Option.some.inj (one.symm.trans two)
  · intro agree steps' got' i cs at_
    cases got.symm.trans got'
    have here := List.mem_of_getElem? at_
    obtain ⟨first,member,found,named⟩ := find_first here
    rw [resolve,found]
    exact congrArg some (agree first member cs here named)

/-- What a command is interpolated to by the values of a configuration as it is. -/
def expanded (host : Host) (cf : Config) (command : List Str) : Option (List Str) :=
  (interpolateArgs (reading fun name => (configInterpolateLookup host name cf).1) command ()).1

theorem answers_reading (f : Str → Option Str) (steps : List ConfigStep) :
    answers (reading f) steps () = steps.map fun cs => (cs.name,(interpolateArgs (reading f) cs.command ()).1) := by
  induction steps with
  | nil => rfl
  | cons cs steps ih =>
    simp only [answers] at ih
    simp only [answers,turns,List.map_cons]
    exact congrArg _ ih

/-- Where there is no counter, only the commands and the configuration matter. -/
theorem agreeing_expanded {host : Host} {cf : Config} (other : cf.mode ≠ .robsdRegress) (steps : List ConfigStep) :
    Agreeing (configInterpolateLookup host) steps cf ↔
      ∀ a ∈ steps, ∀ b ∈ steps, a.name = b.name → expanded host cf a.command = expanded host cf b.command := by
  unfold Agreeing
  rw [answers_simulates (pure_simulates other) steps (.refl host cf),answers_reading]
  simp only [List.forall_mem_map]
  rfl

/-- Steps of one name have one script in the tables. -/
theorem scripts_table : ∀ scripts ∈ [robsdSteps,robsdCrossSteps,robsdPortsSteps],
    scripts.Pairwise fun a b => a.name = b.name → a = b := by decide +kernel

theorem agreeing_table {host : Host} {cf : Config} (other : cf.mode ≠ .robsdRegress) {scripts : List Script}
    (table : scripts ∈ [robsdSteps,robsdCrossSteps,robsdPortsSteps]) :
    Agreeing (configInterpolateLookup host) (addScripts [] scripts) cf := by
  rw [agreeing_expanded other,addScripts_eq,List.nil_append]
  simp only [List.forall_mem_map]
  intro a here b there same
  have pairs := scripts_table scripts table
  have one := List.Pairwise.forall_of_forall_of_flip (fun _ _ _ => rfl) pairs
    (pairs.imp fun one same => (one same.symm).symm) here there
  rw [one same]

/-! ## Suites -/

/-- The step of a suite. -/
def suiteStep (host : Host) (cf : Config) (suite : Str) : ConfigStep :=
  scriptStep ⟨suite,regressExec⟩ (isParallel host suite cf).1

/-- The turns of the steps of robsd-regress, each with the memory from which its
    command is interpolated. -/
def regressTurns (host : Host) (trace : Bool) (cf : Config) : List (ConfigStep × Memo) :=
  turns (freshLookup host (traced cf trace)) (getSteps host cf).1 (memo cf)

/-- Every suite has one command at all its turns. -/
def SuitesAgree (host : Host) (trace : Bool) (cf : Config) : Prop :=
  ∀ suite ∈ suites cf, ∀ m m',
    (suiteStep host cf suite,m) ∈ regressTurns host trace cf →
      (suiteStep host cf suite,m') ∈ regressTurns host trace cf →
    commandAt (freshLookup host (traced cf trace)) (suiteStep host cf suite,m) =
      commandAt (freshLookup host (traced cf trace)) (suiteStep host cf suite,m')

/-- The part of a path behind its last slash. -/
def basename (path : Str) : Str := (path.reverse.takeWhile (· ≠ '/')).reverse

theorem basename_append {path file : Str} (plain : '/' ∉ file) : basename (path ++ '/' :: file) = file := by
  have inside : ∀ c ∈ file.reverse, decide (c ≠ '/') = true := by
    intro c member
    apply decide_eq_true
    rintro rfl
    exact plain (List.mem_reverse.mp member)
  simp only [basename,List.reverse_append,List.reverse_cons,List.append_assoc]
  rw [List.takeWhile_append_of_pos inside]
  simp

/-- A reference and plain text behind it give some text and the text behind it. -/
theorem interpolateStr_reference {lookup : Lookup σ} {name behind out : Str} {s : σ} (close : '}' ∉ name)
    (named : name ≠ [])
    (plain : '$' ∉ behind) (run : (interpolateStr lookup false (reference name ++ behind) s).1 = .ok out) :
      ∃ value, out = value ++ behind := by
  have shape : reference name ++ behind = [] ++ '$' :: '{' :: (name ++ '}' :: behind) := by simp [reference]
  rw [shape,interpolateStr,interpolate_reference List.not_mem_nil close named] at run
  split at run
  · cases run
  · split at run
    · cases run
    · next out' _ _ =>
      rw [interpolate_plain _ _ _ plain] at run
      cases run
      exact ⟨out',rfl⟩

/-- A path in `${exec-dir}` or without a reference. -/
def Located (path : Str) : Prop :=
  (path = reference "exec-dir".toList ++ '/' :: basename path ∧ '$' ∉ basename path ∧ '/' ∉ basename path) ∨ '$' ∉ path

instance (path : Str) : Decidable (Located path) := inferInstanceAs (Decidable (_ ∨ _))

/-- Interpolation does not change the file a path names. -/
theorem basename_interpolated {lookup : Lookup σ} {path out : Str} {s : σ} (located : Located path)
    (run : (interpolateStr lookup false path s).1 = .ok out) : basename out = basename path := by
  rcases located with ⟨shape,plain,file⟩ | plain
  · rw [shape] at run
    obtain ⟨value,rfl⟩ := interpolateStr_reference (by decide) (by decide) (by simpa using plain) run
    rw [basename_append file]
  · rw [interpolateStr,interpolate_plain _ _ _ plain] at run
    cases run
    rfl

theorem interpolateArgs_append {lookup : Lookup σ} {xs ys command : List Str} {s : σ}
    (run : (interpolateArgs lookup (xs ++ ys) s).1 = some command) :
    ∃ front back, (interpolateArgs lookup ys (interpolateArgs lookup xs s).2).1 = some back ∧
      command = front ++ back := by
  induction xs generalizing s command with
  | nil => exact ⟨[],command,run,rfl⟩
  | cons arg xs ih =>
    simp only [List.cons_append,interpolateArgs] at run ⊢
    split at run
    · cases run
    · next out s' first =>
      obtain ⟨rest,later,same⟩ := Option.map_eq_some_iff.mp run
      obtain ⟨front,back,tail,rfl⟩ := ih later
      refine ⟨if out = [] then front else out :: front,back,by simpa only [first] using tail,?_⟩
      rw [← same]
      split <;> rfl

/-- The command of a script ends with its path and the name of the step. -/
theorem commandAt_script {lookup : Lookup σ} {cs : Script} {parallel : Bool} {s : σ} {command : List Str}
    (located : Located cs.path) (file : basename cs.path ≠ []) (plain : '$' ∉ cs.name) (named : cs.name ≠ [])
    (run : commandAt lookup (scriptStep cs parallel,s) = some command) :
    ∃ front path, command = front ++ [path,cs.name] ∧ basename path = basename cs.path := by
  obtain ⟨front,back,tail,rfl⟩ := (@interpolateArgs_append _ _ ["sh".toList,"-eu".toList,"$\x7btrace\x7d".toList]) run
  simp only [interpolateArgs] at tail
  split at tail
  · cases tail
  · next path s' ran =>
    have same := basename_interpolated located (by rw [ran])
    have some_ : path ≠ [] := by
      rintro rfl
      exact file same.symm
    rw [interpolateStr,interpolate_plain _ _ _ plain] at tail
    simp only [Option.map_some,named,some_,↓reduceIte,Option.some.injEq] at tail
    exact ⟨front,path,by rw [← tail],same⟩

/-- The system steps have plain names and scripts other than the one for suites. -/
theorem system_table : ∀ cs ∈ systemScripts, Located cs.path ∧ basename cs.path ≠ [] ∧ '$' ∉ cs.name ∧ cs.name ≠ [] ∧
    basename cs.path ≠ basename regressExec := by decide +kernel

theorem suites_table : Located regressExec ∧ basename regressExec ≠ [] := by decide +kernel

/-- A suite with the name of a system step has another command. -/
theorem suite_differs {lookup : Lookup σ} {cs : Script} {parallel parallel' : Bool} {s s' : σ} {command : List Str}
    (system : cs ∈ systemScripts) (one : commandAt lookup (scriptStep cs parallel,s) = some command) :
    commandAt lookup (scriptStep ⟨cs.name,regressExec⟩ parallel',s') ≠ some command := by
  intro two
  obtain ⟨located,file,plain,named,differs⟩ := system_table cs system
  obtain ⟨front,path,rfl,same⟩ := commandAt_script located file plain named one
  obtain ⟨front',path',shape,same'⟩ :=
    (@commandAt_script _ _ ⟨cs.name,regressExec⟩) suites_table.1 suites_table.2 plain named two
  obtain ⟨_,ends⟩ := List.append_inj' shape rfl
  simp only [List.cons.injEq,and_true] at ends
  exact differs (by rw [← same,ends,same'])

theorem system_names : (((robsdRegressSteps.takeWhile (·.isSome)).filterMap id) ++
    (((robsdRegressSteps.dropWhile (·.isSome)).drop 1).filterMap id)).Pairwise fun a b => a.name ≠ b.name := by
  decide +kernel

section
variable {host : Host} {trace : Bool} {cf : Config} (mode : cf.mode = .robsdRegress)
include mode

/-- Steps share a name only where it is the name of a suite. -/
theorem shared_names : (getSteps host cf).1.Pairwise fun a b => a.name = b.name → a.name ∈ suites cf := by
  have system : ∀ {scripts : List Script}, scripts.Pairwise (fun a b => a.name ≠ b.name) →
      (scripts.map (scriptStep · false)).Pairwise fun a b => a.name = b.name → a.name ∈ suites cf := by
    intro scripts distinct
    exact List.pairwise_map.mpr (distinct.imp fun other same => absurd same other)
  have listed : ∀ {p : Str → Bool} {parallel : Bool} {cs : ConfigStep},
      cs ∈ ((suites cf).filter p).map (fun suite => scriptStep ⟨suite,regressExec⟩ parallel) → cs.name ∈ suites cf := by
    intro p parallel cs member
    obtain ⟨suite,kept,rfl⟩ := List.mem_map.mp member
    exact List.mem_of_mem_filter kept
  obtain ⟨before,after,apart⟩ := List.pairwise_append.mp system_names
  rw [getSteps_regress mode]
  refine List.pairwise_append.mpr ⟨List.pairwise_append.mpr ⟨List.pairwise_append.mpr ⟨system before,?_,?_⟩,?_,?_⟩,
    system after,?_⟩
  · exact List.pairwise_of_forall_mem_list fun a here _ _ _ => listed here
  · intro a _ b there same
    exact same ▸ listed there
  · exact List.pairwise_of_forall_mem_list fun a here _ _ _ => listed here
  · intro a _ b there same
    exact same ▸ listed there
  · intro a here b there same
    rcases List.mem_append.mp here with here | here
    · rcases List.mem_append.mp here with here | here
      · obtain ⟨cs,one,rfl⟩ := List.mem_map.mp here
        obtain ⟨cs',two,rfl⟩ := List.mem_map.mp there
        exact absurd same (apart cs one cs' two)
      · exact listed here
    · exact listed here

/-- A step with the name of a suite is that suite's unless the system has one. -/
theorem suiteStep_of_name (free : ∀ suite ∈ suites cf, suite ∉ systemScripts.map (·.name)) {cs : ConfigStep}
    (member : cs ∈ (getSteps host cf).1) (named : cs.name ∈ suites cf) : cs = suiteStep host cf cs.name := by
  rcases (mem_getSteps_regress mode host cs).mp member with ⟨script,system,rfl⟩ | ⟨suite,_,rfl⟩
  · exact absurd (List.mem_map.mpr ⟨script,system,rfl⟩) (free _ named)
  · rfl

/-- Names agree where no suite has the name of a system step and every suite has
    one command, and only there. -/
theorem agreeing_regress {steps : List ConfigStep} (got : (configGetSteps host trace cf).1 = some steps) :
    Agreeing (configInterpolateLookup host) (getSteps host (traced cf trace)).1 (traced cf trace) ↔
      (∀ suite ∈ suites cf, suite ∉ systemScripts.map (·.name)) ∧ SuitesAgree host trace cf := by
  have rows := interpolateSteps_answers ((configGetSteps_eq host trace cf).symm.trans got)
  have fresh := answers_simulates fresh_simulates (getSteps host (traced cf trace)).1
    (s := traced cf trace) (t := memo cf) ⟨.refl host _,rfl⟩
  rw [traced,getSteps_trace,← traced] at fresh rows ⊢
  have turn : ∀ {cs}, cs ∈ (getSteps host cf).1 → ∃ m, (cs,m) ∈ regressTurns host trace cf := by
    intro cs member
    rw [← turns_steps (freshLookup host (traced cf trace)) (getSteps host cf).1 (memo cf)] at member
    obtain ⟨⟨_,m⟩,here,rfl⟩ := List.mem_map.mp member
    exact ⟨m,here⟩
  unfold Agreeing
  rw [fresh]
  simp only [answers,List.forall_mem_map]
  constructor
  · intro agree
    refine ⟨?_,fun suite _ m m' here there => agree _ here _ there rfl⟩
    intro suite listed clash
    obtain ⟨cs,system,rfl⟩ := List.mem_map.mp clash
    obtain ⟨m,here⟩ := turn ((mem_getSteps_regress mode host _).mpr (.inl ⟨cs,system,rfl⟩))
    obtain ⟨m',there⟩ := turn ((mem_getSteps_regress mode host _).mpr (.inr ⟨cs.name,listed,rfl⟩))
    have answered : (cs.name,commandAt (freshLookup host (traced cf trace)) (scriptStep cs false,m)) ∈
        steps.map fun cs => (cs.name,some cs.command) := by
      rw [← rows,fresh]
      exact List.mem_map.mpr ⟨_,here,rfl⟩
    obtain ⟨out,_,same⟩ := List.mem_map.mp answered
    have one := (Prod.mk.inj same).2.symm
    exact suite_differs system one ((agree _ here _ there rfl).symm.trans one)
  · rintro ⟨free,agree⟩
    have whole := turns_steps (freshLookup host (traced cf trace)) (getSteps host cf).1 (memo cf)
    have shared : (getSteps host cf).1.Pairwise _ := shared_names mode
    rw [← whole,List.pairwise_map] at shared
    have listed : ∀ a ∈ regressTurns host trace cf, a.1 ∈ (getSteps host cf).1 := by
      intro a member
      rw [← whole]
      exact List.mem_map_of_mem member
    have pairs : (regressTurns host trace cf).Pairwise fun a b => a.1.name = b.1.name →
        commandAt (freshLookup host (traced cf trace)) a = commandAt (freshLookup host (traced cf trace)) b := by
      refine shared.imp_of_mem fun {a b} here there suite same => ?_
      have one := suiteStep_of_name mode free (listed a here) (suite same)
      have two := suiteStep_of_name mode free (listed b there) (same ▸ suite same)
      obtain ⟨cs,m⟩ := a
      obtain ⟨cs',m'⟩ := b
      dsimp only at same one two
      rw [← same] at two
      have key := agree cs.name (suite same) m m'
      rw [← one] at two key
      subst two
      exact key here there
    intro a here b there same
    exact List.Pairwise.forall_of_forall_of_flip (fun _ _ _ => rfl) pairs
      (pairs.imp fun one same => (one same.symm).symm) here there same

end

/-! ## Modes -/

/-- What the configuration has to fulfil, which is nothing where the steps are
    those of a table. -/
def Unambiguous (host : Host) (trace : Bool) (cf : Config) : Prop :=
  match cf.mode with
  | .robsd => True
  | .robsdCross => True
  | .robsdPorts => True
  | .robsdRegress => (∀ suite ∈ suites cf, suite ∉ systemScripts.map (·.name)) ∧ SuitesAgree host trace cf
  | .canvas => ∀ a ∈ cf.canvasSteps, ∀ b ∈ cf.canvasSteps, a.name = b.name →
      expanded host (traced cf trace) a.command = expanded host (traced cf trace) b.command

/-- The step that is executed has the command of the one that is listed exactly
    where the names are unambiguous. -/
theorem listed_agrees_iff {host : Host} {trace : Bool} {cf : Config} {steps : List ConfigStep}
    (got : (configGetSteps host trace cf).1 = some steps) : ListedAgrees host trace cf ↔ Unambiguous host trace cf := by
  rw [listedAgrees_iff got]
  unfold Unambiguous
  cases mode : cf.mode with
  | robsdRegress => exact agreeing_regress mode got
  | canvas =>
    have other : (traced cf trace).mode ≠ .robsdRegress := by simp [traced,mode]
    rw [agreeing_expanded other]
    simp [getSteps,traced,mode]
  | robsd =>
    have other : (traced cf trace).mode ≠ .robsdRegress := by simp [traced,mode]
    have table : Agreeing (configInterpolateLookup host) (addScripts [] robsdSteps) (traced cf trace) :=
      agreeing_table other (.head _)
    simpa only [getSteps,traced,mode,iff_true] using table
  | robsdCross =>
    have other : (traced cf trace).mode ≠ .robsdRegress := by simp [traced,mode]
    have table : Agreeing (configInterpolateLookup host) (addScripts [] robsdCrossSteps) (traced cf trace) :=
      agreeing_table other (.tail _ (.head _))
    simpa only [getSteps,traced,mode,iff_true] using table
  | robsdPorts =>
    have other : (traced cf trace).mode ≠ .robsdRegress := by simp [traced,mode]
    have table : Agreeing (configInterpolateLookup host) (addScripts [] robsdPortsSteps) (traced cf trace) :=
      agreeing_table other (.tail _ (.tail _ (.head _)))
    simpa only [getSteps,traced,mode,iff_true] using table

/-- A configuration for robsd-regress with one suite. -/
def suiteText (suite : String) : Str := ("robsddir \"/home/robsd\"\nregress \"" ++ suite ++ "\"\n").toList

theorem listed_agrees_iff_suite :
    ∃ cf, configParse sampleHost (suiteText "bin/cat") (configAlloc .robsdRegress) = .ok cf ∧
    (ListedAgrees sampleHost true cf ↔ Unambiguous sampleHost true cf) := by
  have run : ((configParse sampleHost (suiteText "bin/cat") (configAlloc .robsdRegress)).toOption.map fun cf =>
      (configGetSteps sampleHost true cf).1.isSome) = some true := by decide +kernel
  cases parsed : configParse sampleHost (suiteText "bin/cat") (configAlloc .robsdRegress) with
  | error log => rw [parsed] at run; cases run
  | ok cf =>
    rw [parsed] at run
    obtain ⟨steps,got⟩ := Option.isSome_iff_exists.mp (Option.some.inj run)
    exact ⟨cf,rfl,listed_agrees_iff got⟩

/-- A suite `env` is listed as step 7, but its name executes step 1. -/
theorem listed_agrees_clash :
    ¬ ∀ (host : Host) (mode : Mode) (text : Str) (trace : Bool) (cf : Config),
      configParse host text (configAlloc mode) = .ok cf → ListedAgrees host trace cf := by
  intro all
  have run : ((configParse sampleHost (suiteText "env") (configAlloc .robsdRegress)).toOption.map fun cf =>
      ((configGetSteps sampleHost false cf).1.bind fun steps => steps[6]?.map fun cs => (cs.name,cs.command),
        resolveStepCommand sampleHost false "env".toList cf)) =
      some (some ("env".toList,
        ["sh".toList,"-eu".toList,"/usr/local/libexec/robsd/robsd-regress-exec.sh".toList,"env".toList]),
        some ["sh".toList,"-eu".toList,"/usr/local/libexec/robsd/robsd-env.sh".toList,"env".toList]) := by
    decide +kernel
  cases parsed : configParse sampleHost (suiteText "env") (configAlloc .robsdRegress) with
  | error log => rw [parsed] at run; cases run
  | ok cf =>
    rw [parsed] at run
    obtain ⟨listed,resolved⟩ := Prod.mk.inj (Option.some.inj run)
    obtain ⟨steps,got,row⟩ := Option.bind_eq_some_iff.mp listed
    obtain ⟨cs,entry,fields⟩ := Option.map_eq_some_iff.mp row
    obtain ⟨name,command⟩ := Prod.mk.inj fields
    have agrees := all sampleHost .robsdRegress (suiteText "env") false cf parsed steps got 6 cs entry
    rw [name,resolved,command] at agrees
    exact absurd agrees (by decide)

end Robsd.ListedSteps
