import Robsd.Redefinition

/-!
The number of processors. Whatever a file says and whatever is looked up while it
is parsed, `ncpu` is the number that `config_default_ncpu` appends, and a reference
to it is replaced by what is read of that.
-/
namespace Robsd.Processors
open Robsd.Strings
open Robsd.Modes
open Robsd.Decimal (decimal decimal_absent)
open Robsd.Configuration
open Robsd.ConfigParse
open Robsd.Interpolate
open Robsd.LookupMemo
open Robsd.Statements
open Robsd.Redefinition (afterParse_vars)
variable {host : Host} {mode : Mode}

def ncpu : Str := "ncpu".toList

/-- The number that `config_default_ncpu` obtains. -/
def onlineProcessors (host : Host) : Int := if host.processors = -1 then 1 else host.processors

theorem treatment_ncpu (host : Host) (mode : Mode) (trace : Bool) :
    treatment host mode trace ncpu = .append (.integer (host.i64 (onlineProcessors host))) := by
  have table : (configFindGrammarForInterpolation mode ncpu).map (fun gr => (gr.flags.req,gr.default)) =
    some (false,.fn .ncpu) := by
    cases mode <;> decide +kernel
  obtain ⟨gr,found,fields⟩ := Option.map_eq_some_iff.mp table
  obtain ⟨req,default⟩ := Prod.mk.inj fields
  rw [treatment,found]
  dsimp only
  rw [req,default]
  rfl

/-! ## Statements -/

/-- A later configuration with the same number of processors, given or to be given. -/
structure Steady (host : Host) (s t : Config) : Prop where
  mode : t.mode = s.mode
  early : t.early = s.early
  processors : settled host t ncpu = settled host s ncpu

theorem settled_ncpu (host : Host) (cf : Config) :
    settled host cf ncpu = (cf.value ncpu).or (some (.integer (host.i64 (onlineProcessors host)))) := by
  rw [settled,treatment_ncpu]
  rfl

theorem Steady.refl (host : Host) (s : Config) : Steady host s s := ⟨rfl,rfl,rfl⟩

theorem Steady.trans {s t u : Config} (before : Steady host s t) (later : Steady host t u) : Steady host s u :=
  ⟨later.mode.trans before.mode,later.early.trans before.early,later.processors.trans before.processors⟩

theorem Steady.value {s t : Config} (mode : t.mode = s.mode) (early : t.early = s.early)
    (value : t.value ncpu = s.value ncpu) :
    Steady host s t := ⟨mode,early,by rw [settled_ncpu,settled_ncpu,value]⟩

theorem Steady.kept {s t : Config} (kept : Kept host s t) : Steady host s t :=
  ⟨kept.mode,kept.early,kept.settled ncpu (by decide)⟩

theorem Steady.append (s : Config) {name : Str} (val : Value) (other : name ≠ ncpu) :
    Steady host s (configAppend s name val) :=
  .value rfl rfl (by rw [configAppend_value,if_neg other,Option.or_none])

theorem Steady.concat (s : Config) {name : Str} (xs : List Str) (other : name ≠ ncpu) :
    Steady host s (configConcat s name xs) :=
  .value rfl rfl (by rw [Effects.configConcat_value,if_neg other])

theorem regressname_ncpu (path a : Str) : regressname path a ≠ ncpu := RegressConfig.regressname_ne (by decide)

theorem option_steady {path : Str} {option : SuiteOption} {s t : Config} (early : s.early = false)
    (ran : option.run host path s = some t) : Steady host s t := by
  cases option with
  | env xs =>
    obtain ⟨str,_,counted⟩ := Growth.runEnv_eq early ran
    exact (Steady.append s (.string str) (regressname_ncpu path _)).trans
      (.value counted.mode counted.early (by rw [Config.value,counted.vars]; rfl))
  | noParallel | quiet | root =>
    cases ran
    exact .append s _ (regressname_ncpu path _)
  | obj xs | packages xs =>
    cases ran
    exact .concat s xs (by decide)
  | targets xs =>
    cases ran
    exact .concat s xs (regressname_ncpu path _)
  | timeout n unit =>
    obtain ⟨m,_,rfl⟩ := Option.map_eq_some_iff.mp ran
    exact .append s _ (regressname_ncpu path _)

theorem options_steady {path : Str} : ∀ (options : List SuiteOption) {s t : Config}, s.early = false →
    options.foldlM (SuiteOption.run host path) s = some t → Steady host s t
  | [],s,t,_,ran => by
    cases ran
    exact .refl host s
  | option :: options,s,t,early,ran => by
    rw [List.foldlM_cons] at ran
    obtain ⟨mid,first,later⟩ := Option.bind_eq_some_iff.mp ran
    have steady := option_steady early first
    exact steady.trans (options_steady options (steady.early.trans early) later)

theorem stepOptions_steady : ∀ (options : List StepOption) (s : (List Str × Bool) × Config),
    Steady host s.2 (options.foldl (StepOption.run host) s).2
  | [],s => .refl host s.2
  | option :: options,s => by
    have first : Steady host s.2 (option.run host s).2 := by
      cases option with
      | command xs =>
        simp only [StepOption.run]
        split
        · exact .refl host _
        · exact .kept (configFind_kept _ _)
      | parallel => exact .refl host _
    exact first.trans (stepOptions_steady options _)

theorem runDirectory_steady {path : Str} {s t : Config} (ran : runDirectory host path s = some t) :
    Steady host s t := by
  have kept := interpolateStr_kept (@configInterpolateLookup_kept host) false path s
  unfold runDirectory at ran
  split at ran
  · cases ran
  · cases out : interpolateStr (configInterpolateLookup host) false path s with
    | mk read mid =>
      rw [out] at ran kept
      cases read with
      | error e => cases ran
      | ok path =>
        simp only [Option.ite_none_right_eq_some,Option.some.injEq] at ran
        exact ran.2 ▸ .kept kept

/-- The function behind a keyword leaves the number of processors alone. -/
theorem argument_steady {kw : Str} {fn : Parser} {arg : Argument} {s t : Config} (early : s.early = false)
    (other : kw ≠ ncpu) (ran : arg.run host kw s fn = some t) :
    Steady host s t := by
  cases fn with
  | boolean | integer | string | list =>
    cases arg <;> try cases ran
    exact .append s _ other
  | user =>
    cases arg <;> try cases ran
    simp only [Argument.run,Option.ite_none_right_eq_some] at ran
    cases ran.2
    exact .append s _ other
  | glob =>
    cases arg <;> try cases ran
    next str =>
    simp only [Argument.run] at ran
    cases found : host.glob str with
    | noMatch =>
      rw [found] at ran
      cases ran
      exact .refl host s
    | failed reason => rw [found] at ran; cases ran
    | paths xs =>
      rw [found] at ran
      cases ran
      exact .append s _ other
  | timeout =>
    cases arg <;> try cases ran
    obtain ⟨m,_,rfl⟩ := Option.map_eq_some_iff.mp ran
    exact .append s _ other
  | directory =>
    cases arg <;> try cases ran
    obtain ⟨mid,found,rfl⟩ := Option.map_eq_some_iff.mp ran
    exact (runDirectory_steady found).trans (.append mid _ other)
  | canvasDirectory =>
    cases arg <;> try cases ran
    obtain ⟨mid,found,rfl⟩ := Option.map_eq_some_iff.mp ran
    exact (runDirectory_steady found).trans ((Steady.append mid _ (by decide)).trans (.append _ _ (by decide)))
  | regressEnv =>
    cases arg <;> try cases ran
    exact .concat s _ (by decide)
  | regress =>
    cases arg <;> try cases ran
    next path options =>
    obtain ⟨mid,listed,rfl⟩ := Option.map_eq_some_iff.mp ran
    exact (options_steady options early listed).trans (.concat mid [path] (by decide))
  | canvasStep =>
    cases arg <;> try cases ran
    next name options =>
    have steady := (@stepOptions_steady host) options (([],false),s)
    simp only [Argument.run,addStep,Option.ite_none_left_eq_some] at ran
    generalize options.foldl (StepOption.run host) (([],false),s) = out at steady ran
    obtain ⟨_,added⟩ := ran
    cases added
    split
    · exact steady.trans ((Steady.append out.2 .invalid (by decide)).trans (.value rfl rfl rfl))
    · exact steady.trans (.value rfl rfl rfl)

theorem ncpu_table (mode : Mode) : ∀ gr ∈ grammar mode, gr.fn.isSome → gr.kw ≠ ncpu := by cases mode <;> decide

/-- The statements of a file leave the number of processors alone. -/
theorem runAll_steady :
    ∀ (sts : List Statement) {s t : Config}, s.early = false → runAll host sts s = some t → Steady host s t
  | [],s,t,_,ran => by
    cases ran
    exact .refl host s
  | st :: sts,s,t,early,ran => by
    rw [runAll,List.foldlM_cons] at ran
    obtain ⟨mid,first,later⟩ := Option.bind_eq_some_iff.mp ran
    have steady : Steady host s mid := by
      unfold Statement.run at first
      cases found : configFindGrammarForKeyword s.mode st.kw with
      | none => rw [found] at first; cases first
      | some pair =>
        obtain ⟨gr,fn⟩ := pair
        simp only [found,Option.ite_none_left_eq_some] at first
        obtain ⟨member,parses,kw⟩ := RegressConfig.keyword_mem found
        exact argument_steady early (kw ▸ ncpu_table s.mode gr member (by rw [parses]; rfl)) first.2
    exact steady.trans (runAll_steady sts (steady.early.trans early) later)

/-! ## References -/

@[simp] theorem afterParse_early (cf : Config) : (afterParse cf).early = cf.early := by
  unfold afterParse
  split <;> rfl

@[simp] theorem afterParse_value (cf : Config) (name : Str) : (afterParse cf).value name = cf.value name := by
  rw [Config.value,afterParse_vars]
  rfl

/-- A reference to a variable with a number is replaced by the number. -/
theorem prints_integer {name : Str} {n : Int} {cf cf' : Config} (close : '}' ∉ name) (named : name ≠ [])
    (late : cf.early = false)
    (found : configFind host name cf = (some (.integer n),cf')) :
      (configInterpolateStr host (reference name) cf).1 = some (decimal n) := by
  have resolves : configInterpolateLookup host name cf = (some (decimal n),cf') := by
    simp only [configInterpolateLookup,configInterpolateLookupWith,late,found]
    rfl
  have inside := @interpolate_plain _ (configInterpolateLookup host) false 2 (decimal n)
    (decimal_absent n (by decide) (by decide)) cf'
  have behind := @interpolate_plain _ (configInterpolateLookup host) false 3 [] (by simp) cf'
  have replaced := @interpolate_resolved _ _ false 3 _ _ _ [] _ _ _ close named resolves inside
  rw [behind] at replaced
  have shape : reference name = '$' :: '{' :: (name ++ '}' :: []) := by simp [reference]
  rw [configInterpolateStr,interpolateStr,shape,replaced]
  simp [prepend,Except.map,Except.toOption]

/-- Whatever was looked up while a file was parsed, `ncpu` is replaced by the number
    that is read of the one obtained. -/
theorem prints_ncpu {text : Str} {cf : Config} (accepted : configParse host text (configAlloc mode) = .ok cf) :
    (configInterpolateStr host (reference ncpu) cf).1 = some (decimal (host.i64 (onlineProcessors host))) := by
  obtain ⟨sts,final,_,ran,_,rfl⟩ := configParse_runs accepted
  have steady := runAll_steady sts rfl ran
  have late : (afterParse final).early = false := (afterParse_early final).trans steady.early
  have number := steady.processors
  rw [settled_ncpu,settled_ncpu,← afterParse_value final] at number
  have start : (configAlloc mode).value ncpu = none := rfl
  rw [start,Option.none_or] at number
  cases there : (afterParse final).value ncpu with
  | some val =>
    rw [there,Option.some_or] at number
    cases number
    exact prints_integer (by decide) (by decide) late (configFind_present there)
  | none =>
    have found : configFind host ncpu (afterParse final) =
        appended (afterParse final) ncpu (.integer (host.i64 (onlineProcessors host))) := by
      rw [configFind,configFindWith_eq,there]
      dsimp only
      rw [treatment_ncpu]
    exact prints_integer (by decide) (by decide) late found

end Robsd.Processors
