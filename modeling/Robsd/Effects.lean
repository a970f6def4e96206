import Robsd.Growth

/-!
What statements do to the variables: the names they append, the lists they grow
and, of everything else, that it stays as it is.
-/
namespace Robsd.Effects
open Robsd.Strings
open Robsd.Modes
open Robsd.Bindings
open Robsd.Configuration
open Robsd.ConfigParse
open Robsd.RegressConfig (keyword_mem)
open Robsd.Statements
open Robsd.Growth
variable {host : Host}

/-- How many variables have a name. -/
def entries (name : Str) (cf : Config) : Nat := times name cf.vars

/-! ## Names that are appended -/

/-- What the variable that an option of a suite appends is called behind its path. -/
def suffix : SuiteOption → Option Str
  | .env _ => some "env".toList
  | .noParallel => some "parallel".toList
  | .quiet => some "quiet".toList
  | .root => some "root".toList
  | .timeout _ _ => some "timeout".toList
  | .obj _ | .packages _ | .targets _ => none

/-- The variable that an option of a suite appends. -/
def bound (path : Str) (option : SuiteOption) : Option Str := (suffix option).map (regressname path)

/-- Whether a pattern matches nothing. -/
def matchless (host : Host) (pattern : Str) : Bool := host.glob pattern matches .noMatch

/-- The variables that the function behind a keyword appends. -/
def argumentBound (host : Host) (kw : Str) : Parser → Argument → List Str
  | .regressEnv,_ => []
  | .regress,.suite path options => options.filterMap (bound path)
  | .canvasDirectory,_ => ["canvas-dir".toList,"robsddir".toList]
  | .glob,.string str => if matchless host str then [] else [kw]
  | _,_ => [kw]

/-- The variables that a statement appends. -/
def statementBound (host : Host) (mode : Mode) (st : Statement) : List Str :=
  (configFindGrammarForKeyword mode st.kw).elim [] fun found => argumentBound host st.kw found.2 st.arg

/-- The lists that an option of a suite grows. -/
def optionLists (path : Str) : SuiteOption → List Str
  | .obj _ => ["regress-obj".toList]
  | .packages _ => ["regress-packages".toList]
  | .targets _ => [regressname path "targets".toList]
  | _ => []

/-- The lists that the function behind a keyword grows; the variable of a step is
    appended with the first one only. -/
def argumentLists (kw : Str) : Parser → Argument → List Str
  | .regressEnv,_ => ["regress-env".toList]
  | .regress,.suite path options => options.flatMap (optionLists path) ++ ["regress".toList]
  | .canvasStep,_ => [kw]
  | _,_ => []

/-- The lists that a statement grows. -/
def statementLists (mode : Mode) (st : Statement) : List Str :=
  (configFindGrammarForKeyword mode st.kw).elim [] fun found => argumentLists st.kw found.2 st.arg

/-- A later configuration in which some names were appended and some lists grown,
    next to computed defaults. -/
structure Adds (s t : Config) (names lists : List Str) : Prop where
  mode : t.mode = s.mode
  early : t.early = s.early
  exact : ∀ name, defaulted s.mode name = false → name ∉ lists → entries name t = entries name s+names.count name
  once : ∀ name, name ∉ names → entries name s ≤ 1 → entries name t ≤ 1
  kept : ∀ name val, name ∉ lists → s.value name = some val → t.value name = some val

theorem Adds.refl (s : Config) : Adds s s [] [] := ⟨rfl,rfl,fun _ _ _ => rfl,fun _ _ => id,fun _ _ _ => id⟩

theorem Adds.trans {s t u : Config} {names names' lists lists' : List Str} (before : Adds s t names lists)
    (later : Adds t u names' lists') : Adds s u (names ++ names') (lists ++ lists') := by
  refine ⟨later.mode.trans before.mode,later.early.trans before.early,?_,
    ?_,?_⟩
  · intro name plain own
    rw [List.mem_append,not_or] at own
    rw [later.exact name (before.mode ▸ plain) own.2,before.exact name plain own.1,List.count_append,Nat.add_assoc]
  · intro name absent once
    rw [List.mem_append,not_or] at absent
    exact later.once name absent.2 (before.once name absent.1 once)
  · intro name val own there
    rw [List.mem_append,not_or] at own
    exact later.kept name val own.2 (before.kept name val own.1 there)

theorem Adds.grown {s t : Config} (grown : Grown s t) : Adds s t [] [] :=
  ⟨grown.mode,grown.early,fun _ plain _ => grown.times_other plain,fun _ _ once => grown.times_le_one once,
    fun _ _ _ there => grown.value_some there⟩

theorem Adds.same {s t : Config} (mode : t.mode = s.mode) (early : t.early = s.early) (vars : t.vars = s.vars) :
    Adds s t [] [] := by
  refine ⟨mode,early,?_,?_,?_⟩
  · intro name _ _
    rw [entries,entries,vars]
    rfl
  · intro name _ once
    rwa [entries,vars]
  · intro name val _ there
    rwa [Config.value,vars]

theorem Adds.append (s : Config) (name : Str) (val : Value) : Adds s (configAppend s name val) [name] [] := by
  have counts : ∀ name', entries name' (configAppend s name val) = entries name' s+(if name = name' then 1 else 0) :=
    fun name' => times_apply name' (.bind name val) s.vars
  refine ⟨rfl,rfl,?_,?_,?_⟩
  · intro name' _ _
    rw [counts,List.count_singleton]
    simp
  · intro name' absent once
    rw [counts,if_neg (fun same => absent (by simp [same]))]
    exact once
  · intro name' val' _ there
    rw [configAppend_value,there,Option.some_or]

theorem configConcat_value (cf : Config) (name name' : Str) (xs : List Str) :
    (configConcat cf name xs).value name' =
      if name = name' then some (Value.concat xs ((cf.value name').getD (.list []))) else cf.value name' :=
  first_apply name' (.grow name (Value.list []) (Value.concat xs)) cf.vars

theorem Adds.concat (s : Config) (name : Str) (xs : List Str) : Adds s (configConcat s name xs) [] [name] := by
  have counts : ∀ name', entries name' (configConcat s name xs) = if name = name' then max 1 (entries name' s)
    else entries name' s :=
    fun name' => times_apply name' (.grow name (Value.list []) (Value.concat xs)) s.vars
  refine ⟨rfl,rfl,?_,?_,?_⟩
  · intro name' _ own
    rw [counts,if_neg (fun same => own (by simp [same]))]
    rfl
  · intro name' _ once
    rw [counts]
    split <;> omega
  · intro name' val own there
    rw [configConcat_value,if_neg (fun same => own (by simp [same])),there]

/-- Of a list that was grown, it does not count where it was appended. -/
theorem Adds.loose {s t : Config} {names : List Str} {name : Str} (adds : Adds s t names [])
    (sub : ∀ name' ∈ names, name' = name) :
    Adds s t [name] [name] := by
  refine ⟨adds.mode,adds.early,?_,?_,?_⟩
  · intro name' plain own
    have other : name' ≠ name := by simpa using own
    rw [adds.exact name' plain (by simp),List.count_eq_zero.mpr (fun member => other (sub name' member)),
      List.count_eq_zero.mpr (by simpa using other)]
  · intro name' absent once
    have other : name' ≠ name := by simpa using absent
    exact adds.once name' (fun member => other (sub name' member)) once
  · intro name' val _ there
    exact adds.kept name' val (by simp) there

/-- A variable that is neither appended nor grown stays as it is. -/
theorem Adds.other {s t : Config} {names lists : List Str} (adds : Adds s t names lists) {name : Str}
    (plain : defaulted s.mode name = false) (notAppended : name ∉ names) (notGrown : name ∉ lists) :
    t.value name = s.value name := by
  cases there : s.value name with
  | some val => exact adds.kept name val notGrown there
  | none =>
    have count := adds.exact name plain notGrown
    rw [List.count_eq_zero.mpr notAppended,entries,entries,times_eq_zero.mpr there] at count
    exact times_eq_zero.mp count

theorem count_pair (a b name : Str) : [a,b].count name = (if a = name then 1 else 0)+(if b = name then 1 else 0) := by
  rw [List.count_cons,List.count_singleton,Nat.add_comm]
  simp

/-- The variables that a statement without options appends are its own, or those of `canvas-dir`. -/
theorem argumentBound_own {kw name : Str} {fn : Parser} {arg : Argument} (other : fn ≠ .regress)
    (notCanvas : fn ≠ .canvasDirectory) :
    (argumentBound host kw fn arg).count name ≤ if kw = name then 1 else 0 := by
  have one : [kw].count name = if kw = name then 1 else 0 := by
    rw [List.count_singleton]
    simp
  unfold argumentBound
  split
  · simp
  · exact absurd rfl other
  · exact absurd rfl notCanvas
  · split
    · simp
    · exact one.le
  · exact one.le

/-! ## Statements -/

theorem option_adds {path : Str} {option : SuiteOption} {s t : Config} (early : s.early = false)
    (ran : option.run host path s = some t) : Adds s t (bound path option).toList (optionLists path option) := by
  cases option with
  | env xs =>
    obtain ⟨str,_,counted⟩ := runEnv_eq early ran
    exact (Adds.append s _ (.string str)).trans (.same counted.mode counted.early counted.vars)
  | noParallel =>
    cases ran
    exact .append s _ _
  | quiet =>
    cases ran
    exact .append s _ _
  | root =>
    cases ran
    exact .append s _ _
  | obj xs =>
    cases ran
    exact .concat s _ xs
  | packages xs =>
    cases ran
    exact .concat s _ xs
  | targets xs =>
    cases ran
    exact .concat s _ xs
  | timeout n unit =>
    obtain ⟨m,_,rfl⟩ := Option.map_eq_some_iff.mp ran
    exact .append s _ _

theorem options_adds {path : Str} : ∀ (options : List SuiteOption) {s t : Config}, s.early = false →
    options.foldlM (SuiteOption.run host path) s = some t →
      Adds s t (options.filterMap (bound path)) (options.flatMap (optionLists path))
  | [],s,t,_,ran => by
    cases ran
    exact .refl s
  | option :: options,s,t,early,ran => by
    rw [List.foldlM_cons] at ran
    obtain ⟨mid,first,later⟩ := Option.bind_eq_some_iff.mp ran
    have adds := option_adds early first
    have both := adds.trans (options_adds options (adds.early.trans early) later)
    rw [List.filterMap_cons,List.flatMap_cons]
    cases named : bound path option with
    | none => simpa [named] using both
    | some name => simpa [named] using both

theorem directory_adds {path : Str} {s t : Config} (names : List Str) {f : Config → Config}
    (appends : ∀ mid, Adds mid (f mid) names []) (ran : (runDirectory host path s).map f = some t) :
    Adds s t names [] := by
  obtain ⟨mid,found,rfl⟩ := Option.map_eq_some_iff.mp ran
  exact (Adds.grown (runDirectory_grown found)).trans (appends mid)

/-- What the function behind a keyword appends to the variables. -/
theorem argument_adds {kw : Str} {fn : Parser} {arg : Argument} {s t : Config} (early : s.early = false)
    (step : fn = .canvasStep → kw = "step".toList) (ran : arg.run host kw s fn = some t) :
    Adds s t (argumentBound host kw fn arg) (argumentLists kw fn arg) := by
  cases fn with
  | boolean | integer | string | list =>
    cases arg <;> try cases ran
    exact .append s _ _
  | user =>
    cases arg <;> try cases ran
    simp only [Argument.run,Option.ite_none_right_eq_some] at ran
    cases ran.2
    exact .append s _ _
  | glob =>
    cases arg <;> try cases ran
    next str =>
    simp only [Argument.run] at ran
    simp only [argumentBound]
    cases found : host.glob str with
    | noMatch =>
      rw [found] at ran
      cases ran
      rw [if_pos (by rw [matchless,found])]
      exact .refl s
    | failed reason => rw [found] at ran; cases ran
    | paths xs =>
      rw [found] at ran
      cases ran
      rw [if_neg (by rw [matchless,found]; exact Bool.false_ne_true)]
      exact .append s _ _
  | timeout =>
    cases arg <;> try cases ran
    obtain ⟨m,_,rfl⟩ := Option.map_eq_some_iff.mp ran
    exact .append s _ _
  | directory =>
    cases arg <;> try cases ran
    exact directory_adds [kw] (fun mid => .append mid _ _) ran
  | canvasDirectory =>
    cases arg <;> try cases ran
    exact directory_adds ["canvas-dir".toList,"robsddir".toList]
      (fun mid => (Adds.append mid _ _).trans (.append _ _ _)) ran
  | regressEnv =>
    cases arg <;> try cases ran
    exact .concat s _ _
  | regress =>
    cases arg <;> try cases ran
    next path options =>
    obtain ⟨mid,listed,rfl⟩ := Option.map_eq_some_iff.mp ran
    have adds := (options_adds options early listed).trans (.concat mid "regress".toList [path])
    simpa only [argumentBound,argumentLists,List.append_nil] using adds
  | canvasStep =>
    cases arg <;> try cases ran
    next name options =>
    cases step rfl
    have grown := Adds.grown ((@stepOptions_grown host) options (([],false),s))
    simp only [Argument.run,addStep,Option.ite_none_left_eq_some] at ran
    generalize options.foldl (StepOption.run host) (([],false),s) = out at grown ran
    obtain ⟨_,added⟩ := ran
    cases added
    have steps : ∀ cf canvasSteps, Adds cf { cf with canvasSteps := canvasSteps } [] [] := fun _ _ => .same rfl rfl rfl
    split
    · exact ((grown.trans (.append _ _ .invalid)).trans (steps _ _)).loose (by simp)
    · exact (grown.trans (steps _ _)).loose (by simp)

theorem step_table (mode : Mode) : ∀ gr ∈ grammar mode, gr.fn = some .canvasStep → gr.kw = "step".toList := by
  cases mode <;> decide

/-- What a statement appends to the variables. -/
theorem statement_adds {st : Statement} {s t : Config} (early : s.early = false) (ran : st.run host s = some t) :
    Adds s t (statementBound host s.mode st) (statementLists s.mode st) := by
  unfold Statement.run at ran
  unfold statementBound statementLists
  cases found : configFindGrammarForKeyword s.mode st.kw with
  | none => rw [found] at ran; cases ran
  | some pair =>
    obtain ⟨gr,fn⟩ := pair
    simp only [found,Option.ite_none_left_eq_some] at ran
    obtain ⟨member,parses,kw⟩ := keyword_mem found
    exact argument_adds early (fun step => kw ▸ step_table s.mode gr member (step ▸ parses)) ran.2

/-- What the statements of a file append, one after the other. -/
theorem runAll_adds : ∀ (sts : List Statement) {s t : Config}, s.early = false → runAll host sts s = some t →
    Adds s t (sts.flatMap (statementBound host s.mode)) (sts.flatMap (statementLists s.mode))
  | [],s,t,_,ran => by
    cases ran
    exact .refl s
  | st :: sts,s,t,early,ran => by
    rw [runAll,List.foldlM_cons] at ran
    obtain ⟨mid,first,later⟩ := Option.bind_eq_some_iff.mp ran
    have adds := statement_adds early first
    have rest := runAll_adds sts (adds.early.trans early) later
    rw [adds.mode] at rest
    exact adds.trans rest

end Robsd.Effects
