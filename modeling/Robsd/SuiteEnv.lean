import Robsd.Effects
import Robsd.RegressRoundTrip

/-!
The environment of a suite: what `${regress-S-env}` gives after a configuration
of robsd-regress was parsed, with the `env` options of the suite and the
`regress-env` statements in any order.
-/
namespace Robsd.SuiteEnv
open Robsd.Strings
open Robsd.Modes
open Robsd.Bindings
open Robsd.Configuration
open Robsd.ConfigParse
open Robsd.RegressConfig (regressname_inj regressname_ne suiteNamed keyword_mem configFindGrammarForInterpolation_suite)
open Robsd.Interpolate
open Robsd.Statements
open Robsd.Growth
open Robsd.Effects
open Robsd.RegressRoundTrip (sampleHost)
variable {host : Host}

/-! ## Environments in a file -/

/-- The list behind a keyword. -/
def list : Argument → List Str
  | .list xs => xs
  | _ => []

/-- The entries of all `regress-env` statements. -/
def globals (sts : List Statement) : List Str :=
  sts.flatMap fun st => if st.kw = "regress-env".toList then list st.arg else []

def optionEnv : SuiteOption → Option (List Str)
  | .env xs => some xs
  | _ => none

def argumentEnvs (suite : Str) : Argument → List (List Str)
  | .suite path options => if path = suite then options.filterMap optionEnv else []
  | _ => []

/-- The entries of each `env` option of a suite. -/
def envs (suite : Str) (sts : List Statement) : List (List Str) := sts.flatMap fun st => argumentEnvs suite st.arg

/-- Entries of a suite behind some text, each with a blank in front. -/
def behind (text : Str) (own : List Str) : Str := text ++ own.flatMap (' ' :: ·)

/-- The variable of an environment. -/
def envName (suite : Str) : Str := regressname suite "env".toList

/-- The text of an environment once it has been interpolated early. -/
def early (own : List Str) : Str := behind (reference "regress-env".toList) own

theorem spaces_cons (x : Str) (xs : List Str) : spaces (x :: xs) = behind x xs := by
  induction xs generalizing x with
  | nil => simp [spaces,behind]
  | cons y ys ih => simp [spaces,behind,ih y]

theorem behind_plain {own : List Str} (plain : ∀ e ∈ own, '$' ∉ e) : '$' ∉ own.flatMap (' ' :: ·) := by
  intro member
  obtain ⟨e,among,inside⟩ := List.mem_flatMap.mp member
  rcases List.mem_cons.mp inside with blank | inside
  · cases blank
  · exact plain e among inside

/-! ## Names -/

theorem envName_ne (suite : Str) {name : Str} (other : suiteNamed name = false) :
    envName suite ≠ name := regressname_ne other

theorem envName_brace {suite : Str} (close : '}' ∉ suite) : '}' ∉ envName suite := by
  unfold envName regressname
  rw [List.mem_append,List.mem_append,List.mem_cons]
  have fixed : '}' ∉ regressDash ∧ '}' ≠ '-' ∧ '}' ∉ "env".toList := by decide
  rintro ((inside | inside) | dash | inside)
  · exact fixed.1 inside
  · exact close inside
  · exact fixed.2.1 dash
  · exact fixed.2.2 inside

theorem env_table : (grammar .robsdRegress).find? (fun gr => gr.flags.pat && gr.kw = regressname ['*'] "env".toList) =
    some ⟨"regress-*-env".toList,.string,none,{ pat := true, early := true },s8 "$\x7bregress-env\x7d"⟩ := by
  decide +kernel

theorem envName_defaulted (suite : Str) : defaulted .robsdRegress (envName suite) = false := by
  rw [defaulted,envName,configFindGrammarForInterpolation_suite suite (by decide),env_table]
  rfl

theorem envName_early (suite : Str) : isEarlyVariable .robsdRegress (envName suite) = true := by
  rw [isEarlyVariable,envName,configFindGrammarForInterpolation_suite suite (by decide),env_table]
  rfl

theorem regressEnv_late : isEarlyVariable .robsdRegress "regress-env".toList = false := by decide +kernel

/-! ## Early interpolation -/

theorem reference_append (name behind : Str) : reference name ++ behind = '$' :: '{' :: (name ++ '}' :: behind) := by
  simp [reference]

theorem reference_nil (name : Str) : reference name = '$' :: '{' :: (name ++ '}' :: []) := by simp [reference]

/-- The environment that a suite is given first keeps its reference to the common one. -/
theorem early_env {suite : Str} {own : List Str} {cf : Config} (mode : cf.mode = .robsdRegress) (close : '}' ∉ suite)
    (plain : ∀ e ∈ own, '$' ∉ e) (unset : cf.value (envName suite) = none) :
    (configInterpolateEarly host (reference (envName suite)) (configAppend cf (envName suite)
      (.list (reference "regress-env".toList :: own)))).1 = some (early own) := by
  let s : Config :=
    { configAppend cf (envName suite) (.list (reference "regress-env".toList :: own)) with early := true }
  have there : s.value (envName suite) = some (.list (reference "regress-env".toList :: own)) := by
    change (configAppend cf (envName suite) _).value _ = _
    rw [configAppend_value,unset,if_pos rfl]
    rfl
  have resolves : configInterpolateLookup host (envName suite) s = (some (early own),s) := by
    have asked : isEarlyVariable s.mode (envName suite) = true :=
      (congrArg (isEarlyVariable · _) mode).trans (envName_early suite)
    simp only [configInterpolateLookup,configInterpolateLookupWith,asked,Bool.not_true,
      Bool.and_false,Bool.false_eq_true,
      ↓reduceIte,configFind_present there,Option.bind_some,Value.text,spaces_cons]
    rfl
  have ignored : configInterpolateLookup host "regress-env".toList s = (none,s) := by
    have late : isEarlyVariable s.mode "regress-env".toList = false :=
      (congrArg (isEarlyVariable · _) mode).trans regressEnv_late
    simp only [configInterpolateLookup,configInterpolateLookupWith,late]
    rfl
  have inside : interpolate (configInterpolateLookup host) true 3 (early own) s = (.ok (early own),s) := by
    rw [early,behind,reference_append,interpolate_ignored (by decide) (by decide) ignored,
      interpolate_plain _ _ _ (behind_plain plain)]
    simp [prepend,Except.map]
  have whole : interpolateStr (configInterpolateLookup host) true (reference (envName suite)) s =
    (.ok (early own),s) := by
    rw [interpolateStr,reference_nil,interpolate_resolved (envName_brace close)
      (by simp [envName,regressname]) resolves inside,interpolate_plain _ _ _ (by simp)]
    simp [prepend,Except.map]
  simp only [configInterpolateEarly]
  rw [show { configAppend cf (envName suite) (.list (reference "regress-env".toList :: own)) with early := true } =
    s from rfl,whole]
  rfl

/-! ## Statements -/

/-- The variables of a configuration that some statements have been run in. -/
structure Environments (suite : Str) (cf : Config) (shared : List Str) (own : List (List Str)) : Prop where
  mode : cf.mode = .robsdRegress
  early : cf.early = false
  shared : cf.value "regress-env".toList = some (.list shared) ∨ cf.value "regress-env".toList = none ∧ shared = []
  own : cf.value (envName suite) = own.head?.map fun xs => .string (SuiteEnv.early xs)

theorem suffix_table : ∀ a ∈ ["parallel".toList,"quiet".toList,"root".toList,"timeout".toList,"targets".toList],
    '-' ∉ a ∧ a ≠ "env".toList := by decide

theorem lists_table : ∀ name ∈ ["regress".toList,"regress-obj".toList,"regress-packages".toList,"regress-env".toList],
    suiteNamed name = false := by decide

/-- Only an `env` option of a suite touches the environment of the suite. -/
theorem option_other {suite path : Str} {option : SuiteOption} (other : path = suite → optionEnv option = none) :
    envName suite ∉ (bound path option).toList ∧ envName suite ∉ optionLists path option := by
  have apart : ∀ a ∈ ["parallel".toList,"quiet".toList,"root".toList,"timeout".toList,"targets".toList],
      envName suite ≠ regressname path a := by
    intro a known same
    obtain ⟨dashless,different⟩ := suffix_table a known
    exact different ((regressname_inj (by decide) dashless).mp same).2.symm
  have fixed : ∀ name ∈ ["regress".toList,"regress-obj".toList,"regress-packages".toList,"regress-env".toList],
      envName suite ≠ name := fun name known => envName_ne suite (lists_table name known)
  cases option with
  | env xs =>
    refine ⟨?_,by simp [optionLists]⟩
    intro member
    have same : regressname suite "env".toList = regressname path "env".toList :=
      Option.mem_toList.mp member |> Option.some.inj |>.symm
    have := other ((regressname_inj (by decide) (by decide)).mp same).1.symm
    cases this
  | noParallel => exact ⟨by simpa [bound,suffix] using apart "parallel".toList (by simp),by simp [optionLists]⟩
  | quiet => exact ⟨by simpa [bound,suffix] using apart "quiet".toList (by simp),by simp [optionLists]⟩
  | root => exact ⟨by simpa [bound,suffix] using apart "root".toList (by simp),by simp [optionLists]⟩
  | timeout n unit => exact ⟨by simpa [bound,suffix] using apart "timeout".toList (by simp),by simp [optionLists]⟩
  | targets xs => exact ⟨by simp [bound,suffix],by simpa [optionLists] using apart "targets".toList (by simp)⟩
  | obj xs => exact ⟨by simp [bound,suffix],by simpa [optionLists] using fixed "regress-obj".toList (by simp)⟩
  | packages xs => exact ⟨by simp [bound,suffix],by simpa [optionLists] using fixed "regress-packages".toList (by simp)⟩

theorem option_shared {path : Str} {option : SuiteOption} :
    "regress-env".toList ∉ (bound path option).toList ∧ "regress-env".toList ∉ optionLists path option := by
  have suite : ∀ a, "regress-env".toList ≠ regressname path a := fun a same => regressname_ne (by decide) same.symm
  have apart : "regress-env".toList ≠ "regress-obj".toList ∧
    "regress-env".toList ≠ "regress-packages".toList := by decide
  constructor
  · intro member
    obtain ⟨a,_,same⟩ := Option.map_eq_some_iff.mp (Option.mem_toList.mp member)
    exact suite a same.symm
  · cases option with
    | obj xs => exact fun member => apart.1 (List.mem_singleton.mp member)
    | packages xs => exact fun member => apart.2 (List.mem_singleton.mp member)
    | targets xs => exact fun member => suite _ (List.mem_singleton.mp member)
    | _ => simp [optionLists]

theorem shared_defaulted : defaulted .robsdRegress "regress-env".toList = false := by decide +kernel

/-- The environments of a suite that an option of some suite gives. -/
def optionEnvs (suite path : Str) (option : SuiteOption) : List (List Str) :=
  if path = suite then (optionEnv option).toList else []

theorem option_step {suite path : Str} {option : SuiteOption} {s t : Config} {shared : List Str}
    {own : List (List Str)} (holds : Environments suite s shared own) (close : '}' ∉ suite)
    (plain : ∀ xs ∈ optionEnvs suite path option, ∀ e ∈ xs, '$' ∉ e)
    (ran : option.run host path s = some t) : Environments suite t shared (own ++ optionEnvs suite path option) := by
  have adds := option_adds holds.early ran
  obtain ⟨notAppended,notGrown⟩ := @option_shared path option
  have kept := adds.other (holds.mode ▸ shared_defaulted) notAppended notGrown
  refine ⟨adds.mode.trans holds.mode,adds.early.trans holds.early,kept ▸ holds.shared,?_⟩
  have known : defaulted s.mode (envName suite) = false := holds.mode ▸ envName_defaulted suite
  by_cases own' : path = suite ∧ ∃ xs, option = .env xs
  · obtain ⟨rfl,xs,rfl⟩ := own'
    have entries : optionEnvs path path (.env xs) = [xs] := by simp [optionEnvs,optionEnv]
    rw [entries] at plain ⊢
    obtain ⟨str,text,counted⟩ := runEnv_eq holds.early ran
    have value : t.value (envName path) = (s.value (envName path)).or (some (.string str)) := by
      rw [Config.value,counted.vars]
      exact (configAppend_value s _ _ _).trans (by rw [envName,if_pos rfl])
    rw [value,holds.own]
    cases own with
    | nil =>
      have unset : s.value (envName path) = none := holds.own
      have first := @early_env host _ _ _ holds.mode close (plain xs (by simp)) unset
      unfold envName at first
      rw [text,Option.some.injEq] at first
      rw [first]
      rfl
    | cons ys own => rfl
  · have none : optionEnvs suite path option = [] := by
      unfold optionEnvs
      split
      · next same =>
        cases option with
        | env xs => exact absurd ⟨same,xs,rfl⟩ own'
        | _ => rfl
      · rfl
    have other : path = suite → optionEnv option = Option.none := by
      intro same
      rw [optionEnvs,if_pos same,Option.toList_eq_nil_iff] at none
      exact none
    obtain ⟨notAppended,notGrown⟩ := option_other other
    rw [none,List.append_nil,adds.other known notAppended notGrown,holds.own]

theorem options_step {suite path : Str} (close : '}' ∉ suite) :
    ∀ (options : List SuiteOption) {s t : Config} {shared : List Str}
    {own : List (List Str)}, Environments suite s shared own →
      (∀ xs ∈ options.flatMap (optionEnvs suite path), ∀ e ∈ xs, '$' ∉ e) →
      options.foldlM (SuiteOption.run host path) s = some t →
      Environments suite t shared (own ++ options.flatMap (optionEnvs suite path))
  | [],s,t,shared,own,holds,_,ran => by
    cases ran
    rwa [List.flatMap_nil,List.append_nil]
  | option :: options,s,t,shared,own,holds,plain,ran => by
    rw [List.foldlM_cons] at ran
    obtain ⟨mid,first,later⟩ := Option.bind_eq_some_iff.mp ran
    rw [List.flatMap_cons] at plain ⊢
    have step := option_step holds close (fun xs member => plain xs (List.mem_append_left _ member)) first
    have rest := options_step close options step (fun xs member => plain xs (List.mem_append_right _ member)) later
    rwa [List.append_assoc] at rest

theorem argumentEnvs_suite (suite path : Str) (options : List SuiteOption) :
    argumentEnvs suite (.suite path options) = options.flatMap (optionEnvs suite path) := by
  by_cases same : path = suite
  · have each : optionEnvs suite path = fun option => (optionEnv option).toList := funext fun _ => if_pos same
    rw [argumentEnvs,if_pos same,each,List.filterMap_eq_flatMap_toList]
  · simp [argumentEnvs,optionEnvs,same]

/-- What is known of the keywords of robsd-regress. -/
theorem keyword_table : ∀ gr ∈ grammar .robsdRegress,
    (gr.fn = some .regressEnv ↔ gr.kw = "regress-env".toList) ∧ (gr.fn.isSome → suiteNamed gr.kw = false) ∧
    gr.fn ∉ [some .canvasDirectory,some .canvasStep] := by
  decide +kernel

/-- Statements about other things leave the environments alone. -/
theorem other_step {suite : Str} {st : Statement} {s t : Config} {shared : List Str} {own : List (List Str)}
    {fn : Parser} {gr : Grammar} (holds : Environments suite s shared own)
    (found : configFindGrammarForKeyword .robsdRegress st.kw = some (gr,fn))
    (other : fn ∉ [Parser.regress,.regressEnv]) (ran : st.run host s = some t) :
    Environments suite t shared own := by
  have adds := statement_adds holds.early ran
  obtain ⟨member,parses,kw⟩ := keyword_mem found
  obtain ⟨env,notSuite,notCanvas⟩ := keyword_table gr member
  rw [parses] at env notSuite notCanvas
  rw [kw] at env notSuite
  have notEnv : "regress-env".toList ≠ st.kw := fun same => other (by simp [Option.some.inj (env.mpr same.symm)])
  have lists : statementLists s.mode st = [] := by
    rw [holds.mode,statementLists,found,Option.elim_some]
    cases fn with
    | regress | regressEnv => exact absurd (by simp) other
    | canvasStep => exact absurd (by simp) notCanvas
    | _ => rfl
  have names : ∀ name ∈ statementBound host s.mode st, name = st.kw := by
    rw [holds.mode,statementBound,found,Option.elim_some]
    intro name among
    have counted := (@argumentBound_own host st.kw name fn st.arg) (by simp_all) (by simp_all)
    by_contra different
    rw [if_neg (Ne.symm different)] at counted
    exact List.count_eq_zero.mp (Nat.le_zero.mp counted) among
  refine ⟨adds.mode.trans holds.mode,adds.early.trans holds.early,?_,?_⟩
  · rw [adds.other (holds.mode ▸ shared_defaulted) (fun among => notEnv (names _ among)) (by rw [lists]; simp)]
    exact holds.shared
  · have apart : envName suite ≠ st.kw := envName_ne suite (notSuite rfl)
    rw [adds.other (holds.mode ▸ envName_defaulted suite) (fun among => apart (names _ among)) (by rw [lists]; simp)]
    exact holds.own

theorem statement_step {suite : Str} {st : Statement} {s t : Config} {shared : List Str}
    {own : List (List Str)} (holds : Environments suite s shared own) (close : '}' ∉ suite)
    (plain : ∀ xs ∈ argumentEnvs suite st.arg, ∀ e ∈ xs, '$' ∉ e)
    (ran : st.run host s = some t) :
    Environments suite t (shared ++ globals [st]) (own ++ argumentEnvs suite st.arg) := by
  have ran' := ran
  unfold Statement.run at ran'
  rw [holds.mode] at ran'
  cases found : configFindGrammarForKeyword .robsdRegress st.kw with
  | none => rw [found] at ran'; cases ran'
  | some pair =>
    obtain ⟨gr,fn⟩ := pair
    simp only [found,Option.ite_none_left_eq_some] at ran'
    obtain ⟨_,argument⟩ := ran'
    obtain ⟨member,parses,kw⟩ := keyword_mem found
    have env := (keyword_table gr member).1
    rw [parses,kw,Option.some.injEq] at env
    have global : globals [st] = if st.kw = "regress-env".toList then list st.arg else [] := by
      rw [globals,List.flatMap_singleton]
    by_cases regress : fn = .regress
    · subst regress
      rw [global,if_neg (fun same => by cases env.mpr same),List.append_nil]
      cases arg : st.arg with
      | suite path options =>
        rw [arg] at argument plain
        rw [argumentEnvs_suite] at plain ⊢
        obtain ⟨mid,listed,rfl⟩ := Option.map_eq_some_iff.mp argument
        have step := options_step close options holds plain listed
        have adds := Adds.concat mid "regress".toList [path]
        refine ⟨adds.mode.trans step.mode,adds.early.trans step.early,?_,?_⟩
        · rw [adds.other (step.mode ▸ shared_defaulted) (by simp) (by decide)]
          exact step.shared
        · have apart : envName suite ∉ ["regress".toList] :=
            fun among => envName_ne suite (by decide) (List.mem_singleton.mp among)
          rw [adds.other (step.mode ▸ envName_defaulted suite) (by simp) apart]
          exact step.own
      | _ => rw [arg] at argument; cases argument
    · by_cases regressEnv : fn = .regressEnv
      · subst regressEnv
        rw [global,if_pos (env.mp rfl)]
        cases arg : st.arg with
        | list xs =>
          rw [arg] at argument
          cases argument
          have apart : envName suite ∉ ["regress-env".toList] :=
            fun among => envName_ne suite (by decide) (List.mem_singleton.mp among)
          have adds := Adds.concat s "regress-env".toList xs
          refine ⟨holds.mode,holds.early,.inl ?_,?_⟩
          · rw [configConcat_value,if_pos rfl]
            rcases holds.shared with there | ⟨unset,rfl⟩
            · rw [there]
              rfl
            · rw [unset]
              rfl
          · rw [adds.other (holds.mode ▸ envName_defaulted suite) (by simp) apart,holds.own]
            simp [argumentEnvs]
        | _ => rw [arg] at argument; cases argument
      · have none : argumentEnvs suite st.arg = [] := by
          cases arg : st.arg with
          | suite path options =>
            rw [arg] at argument
            cases fn <;> first | exact absurd rfl regress | cases argument
          | _ => rfl
        rw [global,if_neg (fun same => regressEnv (env.mpr same)),none,List.append_nil,List.append_nil]
        exact other_step holds found (by simp [regress,regressEnv]) ran

/-- The environments after the statements of a file. -/
theorem runAll_environments {suite : Str} (close : '}' ∉ suite) :
    ∀ (sts : List Statement) {s t : Config} {shared : List Str}
    {own : List (List Str)}, Environments suite s shared own → (∀ xs ∈ envs suite sts, ∀ e ∈ xs, '$' ∉ e) →
      runAll host sts s = some t → Environments suite t (shared ++ globals sts) (own ++ envs suite sts)
  | [],s,t,shared,own,holds,_,ran => by
    cases ran
    change Environments suite s (shared ++ []) (own ++ [])
    rwa [List.append_nil,List.append_nil]
  | st :: sts,s,t,shared,own,holds,plain,ran => by
    rw [runAll,List.foldlM_cons] at ran
    obtain ⟨mid,first,later⟩ := Option.bind_eq_some_iff.mp ran
    have split : envs suite (st :: sts) = argumentEnvs suite st.arg ++ envs suite sts := List.flatMap_cons
    have split' : globals (st :: sts) = globals [st] ++ globals sts := by
      rw [globals,List.flatMap_cons,globals,List.flatMap_singleton]
      rfl
    rw [split] at plain ⊢
    have step := statement_step holds close (fun xs member => plain xs (List.mem_append_left _ member)) first
    have rest := runAll_environments close sts step (fun xs member => plain xs (List.mem_append_right _ member)) later
    rwa [List.append_assoc,List.append_assoc,← split'] at rest

/-! ## Interpolation -/

theorem shared_find {suite : Str} {cf : Config} {shared : List Str} {own : List (List Str)}
    (holds : Environments suite cf shared own) :
    configFind host "regress-env".toList cf = (some (.list shared),cf) := by
  rcases holds.shared with there | ⟨unset,rfl⟩
  · exact configFind_present there
  · have found : configFindGrammarForInterpolation .robsdRegress "regress-env".toList =
        some ⟨"regress-env".toList,.list,some .regressEnv,{ rep := true },.null⟩ := by decide +kernel
    rw [configFind_absent unset,holds.mode,found]
    rfl

/-- The reference to a suite's environment gives the common entries and those that
    the suite was given first. -/
theorem interpolate_environments {suite : Str} (close : '}' ∉ suite) {cf : Config} {shared first : List Str}
    {own : List (List Str)}
    (holds : Environments suite cf shared (first :: own)) (plain : ∀ e ∈ shared ++ first, '$' ∉ e) :
    (configInterpolateStr host (reference (envName suite)) cf).1 = some (behind (spaces shared) first) := by
  have there : cf.value (envName suite) = some (.string (SuiteEnv.early first)) := holds.own
  have look : ∀ name, configInterpolateLookup host name cf =
      ((configFind host name cf).1.bind Value.text,(configFind host name cf).2) := by
    intro name
    simp [configInterpolateLookup,configInterpolateLookupWith,holds.early]
  have resolves : configInterpolateLookup host (envName suite) cf = (some (SuiteEnv.early first),cf) := by
    rw [look,configFind_present there]
    rfl
  have common : configInterpolateLookup host "regress-env".toList cf = (some (spaces shared),cf) := by
    rw [look,shared_find holds]
    rfl
  have sharedPlain : '$' ∉ spaces shared := by
    cases shared with
    | nil => simp [spaces]
    | cons x xs =>
      rw [spaces_cons,behind,List.mem_append,not_or]
      exact ⟨plain x (by simp),behind_plain fun e member => plain e (by simp [member])⟩
  have inside : interpolate (configInterpolateLookup host) false 3 (SuiteEnv.early first) cf =
      (.ok (behind (spaces shared) first),cf) := by
    rw [SuiteEnv.early,behind,reference_append,interpolate_resolved (by decide) (by decide) common
      (interpolate_plain _ _ _ sharedPlain _),
      interpolate_plain _ _ _ (behind_plain fun e member => plain e (List.mem_append_right _ member))]
    rfl
  have whole : interpolateStr (configInterpolateLookup host) false (reference (envName suite)) cf =
      (.ok (behind (spaces shared) first),cf) := by
    rw [interpolateStr,reference_nil,interpolate_resolved (envName_brace close)
      (by simp [envName,regressname]) resolves inside,interpolate_plain _ _ _ (by simp)]
    simp [prepend,Except.map]
  rw [configInterpolateStr,whole]
  rfl

/-- Further entries show, unless there are none. -/
theorem behind_eq_iff (text : Str) (first : List Str) (rest : List (List Str)) :
    behind text first = behind text (first ++ rest.flatten) ↔ ∀ own ∈ rest, own = [] := by
  unfold behind
  rw [List.append_cancel_left_eq,List.flatMap_append,List.self_eq_append_right,List.flatMap_eq_nil_iff,
    ← List.flatten_eq_nil_iff]
  constructor
  · intro none
    exact List.eq_nil_iff_forall_not_mem.mpr fun e member => List.cons_ne_nil _ _ (none e member)
  · intro none e member
    rw [none] at member
    cases member

/-- The environment of a suite is complete exactly where the options after the first
    one have no entries: the first one alone is kept. -/
theorem suite_env_iff {text : Str} {cf : Config}
    (accepted : configParse host text (configAlloc .robsdRegress) = .ok cf) :
    ∃ sts, Written .robsdRegress text sts ∧ ∀ suite, '}' ∉ suite → envs suite sts ≠ [] →
      (∀ e ∈ globals sts ++ (envs suite sts).flatten, '$' ∉ e) →
      ((configInterpolateStr host (reference (envName suite)) cf).1 =
          some (behind (spaces (globals sts)) (envs suite sts).flatten) ↔
        ∀ own ∈ (envs suite sts).tail, own = []) := by
  obtain ⟨sts,final,written,ran,_,rfl⟩ := configParse_runs accepted
  refine ⟨sts,written,?_⟩
  intro suite close given plain
  have start : Environments suite (configAlloc .robsdRegress) [] [] := ⟨rfl,rfl,.inr ⟨rfl,rfl⟩,rfl⟩
  have holds := runAll_environments close sts start
    (fun xs member e among => plain e (List.mem_append_right _ (List.mem_flatten.mpr ⟨xs,member,among⟩))) ran
  rw [List.nil_append,List.nil_append] at holds
  have same : afterParse final = final := by simp [afterParse,holds.mode]
  rw [same]
  cases own : envs suite sts with
  | nil => exact absurd own given
  | cons first rest =>
    rw [own] at holds plain
    rw [interpolate_environments close holds fun e member => plain e (by
      rw [List.flatten_cons,← List.append_assoc]
      exact List.mem_append_left _ member),Option.some.injEq,List.flatten_cons]
    exact behind_eq_iff _ first rest

/-- A suite with an environment, and with some more options. -/
def catText (more : String) : Str :=
  ("robsddir \"/home/robsd\"\nregress-env \x7b \"A=1\" \x7d\nregress \"bin/cat\" env \x7b \"B=2\" \x7d" ++
    more ++ "\n").toList

theorem suite_env_iff_cat : ∃ cf, configParse sampleHost (catText "") (configAlloc .robsdRegress) = .ok cf ∧
    ∃ sts, Written .robsdRegress (catText "") sts ∧ ∀ suite, '}' ∉ suite → envs suite sts ≠ [] →
      (∀ e ∈ globals sts ++ (envs suite sts).flatten, '$' ∉ e) →
      ((configInterpolateStr sampleHost (reference (envName suite)) cf).1 =
          some (behind (spaces (globals sts)) (envs suite sts).flatten) ↔
        ∀ own ∈ (envs suite sts).tail, own = []) := by
  have run : (configParse sampleHost (catText "") (configAlloc .robsdRegress)).isOk = true := by decide +kernel
  cases parsed : configParse sampleHost (catText "") (configAlloc .robsdRegress) with
  | error log => rw [parsed] at run; cases run
  | ok cf => exact ⟨cf,rfl,suite_env_iff parsed⟩

def catStatements : List Statement := [
  ⟨"robsddir".toList,.string "/home/robsd".toList⟩,
  ⟨"regress-env".toList,.list ["A=1".toList]⟩,
  ⟨"regress".toList,.suite "bin/cat".toList [.env ["B=2".toList],.env ["C=3".toList]]⟩]

/-- The second environment of a suite is lost. -/
theorem suite_env_second : ¬ ∀ (host : Host) (text : Str) (cf : Config) (sts : List Statement),
    configParse host text (configAlloc .robsdRegress) = .ok cf → Written .robsdRegress text sts →
    ∀ suite, '}' ∉ suite → envs suite sts ≠ [] → (∀ e ∈ globals sts ++ (envs suite sts).flatten, '$' ∉ e) →
      (configInterpolateStr host (reference (envName suite)) cf).1 =
        some (behind (spaces (globals sts)) (envs suite sts).flatten) := by
  intro all
  let text : Str := catText " env \x7b \"C=3\" \x7d"
  have written : Written .robsdRegress text catStatements := by decide +kernel
  have run : (configParse sampleHost text (configAlloc .robsdRegress)).toOption.map
      (fun cf => (configInterpolateStr sampleHost (reference (envName "bin/cat".toList)) cf).1) =
        some (some "A=1 B=2".toList) := by decide +kernel
  obtain ⟨cf,parsed,answer⟩ := Option.map_eq_some_iff.mp run
  cases accepted : configParse sampleHost text (configAlloc .robsdRegress) with
  | error log => rw [accepted] at parsed; cases parsed
  | ok cf' =>
    rw [accepted] at parsed
    cases parsed
    have whole := all _ _ _ _ accepted written "bin/cat".toList (by decide) (by decide) (by decide)
    rw [answer] at whole
    exact absurd whole (by decide)

end Robsd.SuiteEnv
