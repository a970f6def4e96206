import Robsd.Effects
import Robsd.RegressRoundTrip

/-!
The environment of a canvas: the commands of the steps after a canvas was
parsed, with the `env` statement at any place among the `step` statements.
-/
namespace Robsd.CanvasEnv
open Robsd.Strings
open Robsd.Modes
open Robsd.Bindings
open Robsd.Configuration
open Robsd.ConfigParse
open Robsd.RegressConfig (keyword_mem)
open Robsd.Statements
open Robsd.Growth
open Robsd.Effects
open Robsd.RegressRoundTrip (sampleHost)
variable {host : Host}

/-- The keywords of the environment and of the steps. -/
def env : Str := "env".toList
def step : Str := "step".toList

/-- The command that the last option gives, after one that was given. -/
def lastCommand (command : List Str) : List StepOption → List Str
  | [] => command
  | .command xs :: options => lastCommand xs options
  | .parallel :: options => lastCommand command options

def argumentCommand : Argument → List Str
  | .step _ options => lastCommand [] options
  | _ => []

/-- The arguments of the last `command` option of each `step` statement. -/
def stepCommands (sts : List Statement) : List (List Str) := (sts.filter (·.kw = step)).map (argumentCommand ·.arg)

/-- A command with some environment in front of it, if there is a command. -/
def prefixed (own command : List Str) : List Str := if command = [] then [] else env :: own ++ command

/-! ## Lookups of the environment -/

/-- A canvas in which the environment is given or not yet. -/
structure Canvas (cf : Config) (own : Option (List Str)) : Prop where
  mode : cf.mode = .canvas
  early : cf.early = false
  env : cf.value env = own.map .list

theorem env_defaulted : defaulted .canvas env = false := by decide +kernel

theorem env_table :
    configFindGrammarForInterpolation .canvas env = some ⟨env,.list,some .list,{},.null⟩ := by decide +kernel

theorem configFind_env {cf : Config} {own : Option (List Str)} (canvas : Canvas cf own) :
    configFind host env cf = (some (.list (own.getD [])),cf) := by
  cases own with
  | some xs => exact configFind_present canvas.env
  | none =>
    rw [configFind_absent canvas.env,canvas.mode,env_table]
    rfl

/-! ## Steps -/

/-- The options of a step make a command of the arguments that come last. -/
theorem stepOptions_command {cf : Config} {own : Option (List Str)} (canvas : Canvas cf own) :
    ∀ (options : List StepOption) (command : List Str) (parallel : Bool),
      ∃ flag, options.foldl (StepOption.run host) ((prefixed (own.getD []) command,parallel),cf) =
        ((prefixed (own.getD []) (lastCommand command options),flag),cf)
  | [],command,parallel => ⟨parallel,rfl⟩
  | .parallel :: options,command,parallel => stepOptions_command canvas options command true
  | .command xs :: options,command,parallel => by
    have ran : StepOption.run host ((prefixed (own.getD []) command,parallel),cf) (.command xs) =
        ((prefixed (own.getD []) xs,parallel),cf) := by
      simp only [StepOption.run]
      cases xs with
      | nil => rfl
      | cons x xs =>
        rw [if_neg (List.cons_ne_nil _ _),show "env".toList = env from rfl,configFind_env canvas]
        rfl
    rw [List.foldl_cons,ran]
    exact stepOptions_command canvas options xs parallel

theorem addStep_eq {name : Str} {s : (List Str × Bool) × Config} {t : Config} (added : addStep name s = some t) :
    s.1.1 ≠ [] ∧ t.canvasSteps = s.2.canvasSteps ++ [⟨name,s.1.1,s.1.2⟩] := by
  simp only [addStep,Option.ite_none_left_eq_some] at added
  obtain ⟨given,same⟩ := added
  cases same
  refine ⟨given,?_⟩
  dsimp only
  split <;> rfl

theorem canvas_table : ∀ gr ∈ grammar .canvas,
    gr.fn ∉ [some .glob,some .regress,some .regressEnv,some .timeout,some .user] ∧
    (gr.fn = some .canvasStep ↔ gr.kw = step) ∧ (gr.kw = env → gr.fn = some .list ∧ gr.flags.rep = false) := by
  decide +kernel

/-- A statement other than a step leaves the steps alone. -/
theorem argument_canvasSteps {kw : Str} {fn : Parser} {arg : Argument} {s t : Config}
    (other : fn ∉ [Parser.canvasStep,.glob,.regress,.regressEnv,.timeout,.user]) (ran : arg.run host kw s fn = some t) :
    t.canvasSteps = s.canvasSteps := by
  cases fn with
  | boolean | integer | string | list =>
    cases arg <;> try cases ran
    rfl
  | directory | canvasDirectory =>
    cases arg <;> try cases ran
    obtain ⟨mid,found,rfl⟩ := Option.map_eq_some_iff.mp ran
    exact (runDirectory_grown found).canvasSteps
  | _ => exact absurd (by simp) other

/-! ## Statements -/

/-- The names of a statement do not contain one that is no keyword of its own. -/
theorem env_untouched {st : Statement} {gr : Grammar} {fn : Parser}
    (found : configFindGrammarForKeyword .canvas st.kw = some (gr,fn)) (other : st.kw ≠ env) :
    env ∉ statementBound host .canvas st ∧ env ∉ statementLists .canvas st := by
  obtain ⟨member,parses,kw⟩ := keyword_mem found
  obtain ⟨plain,_⟩ := canvas_table gr member
  rw [parses] at plain
  simp only [statementBound,statementLists,found,Option.elim_some]
  have aliases : env ∉ ["canvas-dir".toList,"robsddir".toList] := by decide
  constructor
  · by_cases directory : fn = .canvasDirectory
    · subst directory
      exact aliases
    · have counted := (@argumentBound_own host st.kw env fn st.arg) (fun same => plain (by simp [same])) directory
      rw [if_neg other] at counted
      exact List.count_eq_zero.mp (Nat.le_zero.mp counted)
  · cases fn with
    | canvasStep => exact fun among => other (List.mem_singleton.mp among).symm
    | regress | regressEnv => exact absurd (by simp) plain
    | _ => exact fun impossible => by cases impossible

/-- A statement that is not about the environment adds its step, if it is one. -/
theorem statement_step {st : Statement} {s t : Config} {own : Option (List Str)} (canvas : Canvas s own)
    (other : st.kw ≠ env) (ran : st.run host s = some t) :
    Canvas t own ∧ t.canvasSteps.map (·.command) =
      s.canvasSteps.map (·.command) ++ (stepCommands [st]).map (env :: own.getD [] ++ ·) := by
  have adds := statement_adds canvas.early ran
  have ran' := ran
  unfold Statement.run at ran'
  rw [canvas.mode] at ran' adds
  cases found : configFindGrammarForKeyword .canvas st.kw with
  | none => rw [found] at ran'; cases ran'
  | some pair =>
    obtain ⟨gr,fn⟩ := pair
    simp only [found,Option.ite_none_left_eq_some] at ran'
    obtain ⟨_,argument⟩ := ran'
    obtain ⟨member,parses,kw⟩ := keyword_mem found
    obtain ⟨plain,steps,_⟩ := canvas_table gr member
    rw [parses,kw] at steps
    rw [parses] at plain
    obtain ⟨notAppended,notGrown⟩ := (@env_untouched host) found other
    refine ⟨⟨adds.mode.trans canvas.mode,adds.early.trans canvas.early,?_⟩,?_⟩
    · rw [adds.other (canvas.mode ▸ env_defaulted) notAppended notGrown]
      exact canvas.env
    · by_cases isStep : fn = .canvasStep
      · subst isStep
        have mine : st.kw = step := steps.mp rfl
        cases arg : st.arg with
        | step name options =>
          rw [arg] at argument
          obtain ⟨flag,command⟩ := (@stepOptions_command host _ _ canvas) options [] false
          rw [prefixed,if_pos rfl] at command
          rw [Argument.run,command] at argument
          obtain ⟨given,steps⟩ := addStep_eq argument
          have given : lastCommand [] options ≠ [] := fun none => given (by simp [prefixed,none])
          rw [steps,stepCommands,List.filter_cons_of_pos (by simp [mine])]
          simp [arg,argumentCommand,prefixed,given]
        | _ => rw [arg] at argument; cases argument
      · have same := argument_canvasSteps (by simp_all) argument
        have none : stepCommands [st] = [] := by
          rw [stepCommands,List.filter_cons_of_neg (by simpa using mt steps.mpr (by simpa using isStep))]
          rfl
        rw [same,none,List.map_nil,List.append_nil]

/-- The environment is given once, and to no step by itself. -/
theorem statement_env {st : Statement} {s t : Config} {own : Option (List Str)} (canvas : Canvas s own)
    (mine : st.kw = env) (ran : st.run host s = some t) :
    own = none ∧ ∃ entries, st.arg = .list entries ∧ Canvas t (some entries) ∧ t.canvasSteps = s.canvasSteps := by
  unfold Statement.run at ran
  rw [canvas.mode] at ran
  cases found : configFindGrammarForKeyword .canvas st.kw with
  | none => rw [found] at ran; cases ran
  | some pair =>
    obtain ⟨gr,fn⟩ := pair
    simp only [found,Option.ite_none_left_eq_some] at ran
    obtain ⟨once,argument⟩ := ran
    obtain ⟨member,parses,kw⟩ := keyword_mem found
    obtain ⟨list,rep⟩ := (canvas_table gr member).2.2 (kw.trans mine)
    cases parses.symm.trans list
    have unset : s.value env = none := by
      rw [rep,mine] at once
      simpa [configPresent] using once
    have absent : own = none := by
      rw [canvas.env] at unset
      exact Option.map_eq_none_iff.mp unset
    cases arg : st.arg with
    | list entries =>
      rw [arg,Argument.run,mine] at argument
      cases argument
      refine ⟨absent,entries,rfl,⟨canvas.mode,canvas.early,?_⟩,rfl⟩
      rw [configAppend_value,unset,if_pos rfl]
      rfl
    | _ => rw [arg] at argument; cases argument

theorem stepCommands_append (sts sts' : List Statement) :
    stepCommands (sts ++ sts') = stepCommands sts ++ stepCommands sts' := by
  simp [stepCommands]

/-- Steps get the environment that is given ahead of them. -/
theorem runAll_steps : ∀ (sts : List Statement) {s t : Config} {own : Option (List Str)}, Canvas s own →
    (∀ st ∈ sts, st.kw ≠ env) → runAll host sts s = some t →
    Canvas t own ∧ t.canvasSteps.map (·.command) =
      s.canvasSteps.map (·.command) ++ (stepCommands sts).map (env :: own.getD [] ++ ·)
  | [],s,t,own,canvas,_,ran => by
    cases ran
    exact ⟨canvas,by simp [stepCommands]⟩
  | st :: sts,s,t,own,canvas,other,ran => by
    rw [runAll,List.foldlM_cons] at ran
    obtain ⟨mid,first,later⟩ := Option.bind_eq_some_iff.mp ran
    obtain ⟨here,rest⟩ := List.forall_mem_cons.mp other
    obtain ⟨canvas,steps⟩ := statement_step canvas here first
    obtain ⟨canvas,steps'⟩ := runAll_steps sts canvas rest later
    refine ⟨canvas,?_⟩
    rw [steps',steps,show st :: sts = [st] ++ sts from rfl,stepCommands_append,List.map_append,List.append_assoc]

/-- No further environment is given after the first one. -/
theorem runAll_once : ∀ (sts : List Statement) {s t : Config} {own : List Str}, Canvas s (some own) →
    runAll host sts s = some t → ∀ st ∈ sts, st.kw ≠ env
  | [],_,_,_,_,_ => fun _ impossible => by cases impossible
  | st :: sts,s,t,own,canvas,ran => by
    rw [runAll,List.foldlM_cons] at ran
    obtain ⟨mid,first,later⟩ := Option.bind_eq_some_iff.mp ran
    have here : st.kw ≠ env := by
      intro mine
      obtain ⟨impossible,_⟩ := statement_env canvas mine first
      cases impossible
    exact List.forall_mem_cons.mpr ⟨here,runAll_once sts (statement_step canvas here first).1 later⟩

/-- Where the environment is not given, no statement gave it. -/
theorem runAll_unset : ∀ (sts : List Statement) {s t : Config} {own : Option (List Str)}, Canvas s own →
    runAll host sts s = some t → ∃ own', Canvas t own' ∧ (own' = none → ∀ st ∈ sts, st.kw ≠ env)
  | [],s,t,own,canvas,ran => by
    cases ran
    exact ⟨own,canvas,fun _ _ impossible => by cases impossible⟩
  | st :: sts,s,t,own,canvas,ran => by
    rw [runAll,List.foldlM_cons] at ran
    obtain ⟨mid,first,later⟩ := Option.bind_eq_some_iff.mp ran
    by_cases mine : st.kw = env
    · obtain ⟨_,entries,_,canvas,_⟩ := statement_env canvas mine first
      have once := runAll_once sts canvas later
      exact ⟨some entries,(runAll_steps sts canvas once later).1,fun impossible => by cases impossible⟩
    · obtain ⟨own',canvas,rest⟩ := runAll_unset sts (statement_step canvas mine first).1 later
      exact ⟨own',canvas,fun none => List.forall_mem_cons.mpr ⟨mine,rest none⟩⟩

/-- The steps ahead of the environment do without it, the steps behind it have it. -/
theorem runAll_commands {before after : List Statement} {entries : List Str} {s t : Config} (canvas : Canvas s none)
    (ran : runAll host (before ++ ⟨env,.list entries⟩ :: after) s = some t) :
    t.canvasSteps.map (·.command) = s.canvasSteps.map (·.command) ++ (stepCommands before).map (env :: ·) ++
      (stepCommands after).map (env :: entries ++ ·) := by
  rw [runAll,List.foldlM_append] at ran
  obtain ⟨mid,first,later⟩ := Option.bind_eq_some_iff.mp ran
  rw [List.foldlM_cons] at later
  obtain ⟨mid',given,rest⟩ := Option.bind_eq_some_iff.mp later
  obtain ⟨own,reached,unset⟩ := runAll_unset before canvas first
  obtain ⟨none,entries',same,behind,kept⟩ := statement_env reached rfl given
  cases same
  obtain ⟨_,ahead⟩ := runAll_steps before canvas (unset none) first
  obtain ⟨_,steps⟩ := runAll_steps after behind (runAll_once after behind rest) rest
  rw [steps,kept,ahead]
  rfl

/-- Commands with an environment are those without it only if it is empty. -/
theorem commands_eq_iff (ahead after : List (List Str)) (entries : List Str) :
    ahead.map (env :: ·) ++ after.map (env :: entries ++ ·) = (ahead ++ after).map (env :: entries ++ ·) ↔
      entries = [] ∨ ahead = [] := by
  rw [List.map_append,List.append_cancel_right_eq]
  constructor
  · intro same
    cases ahead with
    | nil => exact .inr rfl
    | cons args ahead =>
      simp only [List.map_cons,List.cons_append,List.cons.injEq,true_and] at same
      exact .inl (List.self_eq_append_left.mp same.1)
  · rintro (rfl | rfl)
    · rfl
    · rfl

/-- The environment reaches every step exactly where it is empty or given ahead of
    all steps. -/
theorem canvas_env_iff {text : Str} {cf : Config} (accepted : configParse host text (configAlloc .canvas) = .ok cf) :
    ∃ sts, Written .canvas text sts ∧ ∀ before entries after, sts = before ++ ⟨env,.list entries⟩ :: after →
      (cf.canvasSteps.dropLast.map (·.command) = (stepCommands sts).map (env :: entries ++ ·) ↔
        entries = [] ∨ stepCommands before = []) := by
  obtain ⟨sts,final,written,ran,_,rfl⟩ := configParse_runs accepted
  refine ⟨sts,written,?_⟩
  intro before entries after split
  subst split
  have start : Canvas (configAlloc .canvas) none := ⟨rfl,rfl,rfl⟩
  have commands := runAll_commands start ran
  have canvas : final.mode = .canvas := (runAll_adds _ rfl ran).mode
  have last : (afterParse final).canvasSteps.dropLast = final.canvasSteps := by
    rw [afterParse,if_pos canvas]
    exact List.dropLast_concat
  have own : stepCommands (before ++ ⟨env,.list entries⟩ :: after) = stepCommands before ++ stepCommands after := by
    have other : stepCommands [⟨env,.list entries⟩] = [] := rfl
    rw [stepCommands_append,show ⟨env,.list entries⟩ :: after = [⟨env,.list entries⟩] ++ after from
      rfl,stepCommands_append,other]
    rfl
  rw [last,commands,own]
  exact commands_eq_iff _ _ _

/-- A canvas with an environment behind some steps and in front of another one. -/
def canvasText (front : String) : Str :=
  ("canvas-name \"c\"\ncanvas-dir \"/home/canvas\"\n" ++ front ++
    "env \x7b \"A=1\" \x7d\nstep \"last\" command \x7b \"true\" \x7d\n").toList

theorem canvas_env_iff_canvas : ∃ cf, configParse sampleHost (canvasText "") (configAlloc .canvas) = .ok cf ∧
    ∃ sts, Written .canvas (canvasText "") sts ∧ ∀ before entries after, sts = before ++ ⟨env,.list entries⟩ :: after →
      (cf.canvasSteps.dropLast.map (·.command) = (stepCommands sts).map (env :: entries ++ ·) ↔
        entries = [] ∨ stepCommands before = []) := by
  have run : (configParse sampleHost (canvasText "") (configAlloc .canvas)).isOk = true := by decide +kernel
  cases parsed : configParse sampleHost (canvasText "") (configAlloc .canvas) with
  | error log => rw [parsed] at run; cases run
  | ok cf => exact ⟨cf,rfl,canvas_env_iff parsed⟩

def canvasStatements : List Statement := [
  ⟨"canvas-name".toList,.string "c".toList⟩,
  ⟨"canvas-dir".toList,.string "/home/canvas".toList⟩,
  ⟨step,.step "first".toList [.command ["true".toList]]⟩,
  ⟨env,.list ["A=1".toList]⟩,
  ⟨step,.step "last".toList [.command ["true".toList]]⟩]

/-- A step ahead of the environment runs without it. -/
theorem canvas_env_behind : ¬ ∀ (host : Host) (text : Str) (cf : Config) (sts : List Statement) (entries : List Str),
    configParse host text (configAlloc .canvas) = .ok cf → Written .canvas text sts → ⟨env,.list entries⟩ ∈ sts →
      cf.canvasSteps.dropLast.map (·.command) = (stepCommands sts).map (env :: entries ++ ·) := by
  intro all
  let text : Str := canvasText "step \"first\" command \x7b \"true\" \x7d\n"
  have written : Written .canvas text canvasStatements := by decide +kernel
  have run : (configParse sampleHost text (configAlloc .canvas)).toOption.map
    (fun cf => cf.canvasSteps.dropLast.map (·.command)) =
      some [["env".toList,"true".toList],["env".toList,"A=1".toList,"true".toList]] := by decide +kernel
  obtain ⟨cf,parsed,commands⟩ := Option.map_eq_some_iff.mp run
  cases accepted : configParse sampleHost text (configAlloc .canvas) with
  | error log => rw [accepted] at parsed; cases parsed
  | ok cf' =>
    rw [accepted] at parsed
    cases parsed
    have reached := all _ _ _ _ ["A=1".toList] accepted written (by decide)
    rw [commands] at reached
    exact absurd reached (by decide)

end Robsd.CanvasEnv
