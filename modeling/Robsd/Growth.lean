import Robsd.LookupMemo
import Robsd.Statements

/-!
How lookups add to the variables: each default that is computed is appended at
most once, under the name that was looked up, and everything that was there stays
in its place. Lookups of an early interpolation append nothing.
-/
namespace Robsd.Growth
open Robsd.Strings
open Robsd.Modes
open Robsd.Bindings
open Robsd.Configuration
open Robsd.Interpolate
open Robsd.LookupMemo
open Robsd.ConfigParse (reference regressname)
open Robsd.Statements
variable {host : Host}

/-- The functions of `gr_default` that append what they compute. -/
def appending : Default → Bool
  | .fn f => f ∉ [DefaultFunction.parallel,.rdomain,.regressTimeout]
  | _ => false

/-- Whether a variable can be appended by a lookup. -/
def defaulted (mode : Mode) (name : Str) : Bool :=
  (configFindGrammarForInterpolation mode name).any (appending ·.default)

theorem treat_appending {trace : Bool} {f : DefaultFunction} :
    ((∃ val, treat host trace f = .append val) ∨ treat host trace f = .buildDir) → appending (.fn f) = true := by
  cases f with
  | parallel | rdomain | regressTimeout => rintro (⟨val,impossible⟩ | impossible) <;> cases impossible
  | _ => exact fun _ => by decide

theorem treatment_defaulted {mode : Mode} {trace : Bool} {name : Str}
    (treats : (∃ val, treatment host mode trace name = .append val) ∨ treatment host mode trace name = .buildDir) :
    defaulted mode name = true := by
  unfold treatment at treats
  unfold defaulted
  cases found : configFindGrammarForInterpolation mode name with
  | none =>
    rw [found] at treats
    rcases treats with ⟨val,impossible⟩ | impossible <;> cases impossible
  | some gr =>
    rw [found] at treats
    dsimp only at treats
    split at treats
    · rcases treats with ⟨val,impossible⟩ | impossible <;> cases impossible
    · split at treats
      · next f default =>
        rw [Option.any_some,default]
        exact treat_appending treats
      · rcases treats with ⟨val,impossible⟩ | impossible <;> cases impossible

/-- A later configuration with variables that were appended for want of a value. -/
structure Grown (s t : Config) : Prop where
  mode : t.mode = s.mode
  early : t.early = s.early
  canvasSteps : t.canvasSteps = s.canvasSteps
  vars : ∃ extra, t.vars = s.vars ++ extra ∧ (extra.map Prod.fst).Nodup ∧
    ∀ e ∈ extra, s.value e.1 = none ∧ defaulted s.mode e.1 = true

theorem Grown.same {s t : Config} (mode : t.mode = s.mode) (early : t.early = s.early)
    (canvasSteps : t.canvasSteps = s.canvasSteps) (vars : t.vars = s.vars) : Grown s t :=
  ⟨mode,early,canvasSteps,[],by simpa using vars,by simp,by simp⟩

theorem Grown.refl (s : Config) : Grown s s := .same rfl rfl rfl rfl

theorem value_vars {s t : Config} {extra : List (Str × Value)} (vars : t.vars = s.vars ++ extra) (name : Str) :
    t.value name = (s.value name).or (first name extra) := by
  rw [Config.value,vars,first_append]
  rfl

theorem Grown.trans {s t u : Config} (before : Grown s t) (later : Grown t u) : Grown s u := by
  obtain ⟨extra,vars,once,absent⟩ := before.vars
  obtain ⟨extra',vars',once',absent'⟩ := later.vars
  refine ⟨later.mode.trans before.mode,later.early.trans before.early,later.canvasSteps.trans before.canvasSteps,
    extra ++ extra',by rw [vars',vars,List.append_assoc],?_,?_⟩
  · rw [List.map_append,List.nodup_append]
    refine ⟨once,once',?_⟩
    intro name inside name' inside' same
    subst same
    obtain ⟨e,member,rfl⟩ := List.mem_map.mp inside
    obtain ⟨e',member',same⟩ := List.mem_map.mp inside'
    have unset := (absent' e' member').1
    rw [value_vars vars,Option.or_eq_none_iff,same] at unset
    exact first_none.mp unset.2 e member rfl
  · intro e member
    rcases List.mem_append.mp member with inside | inside
    · exact absent e inside
    · obtain ⟨unset,default⟩ := absent' e inside
      rw [value_vars vars,Option.or_eq_none_iff] at unset
      exact ⟨unset.1,before.mode ▸ default⟩

/-- A default is appended where there is no value. -/
theorem Grown.append {s : Config} {name : Str} (val : Value) (unset : s.value name = none)
    (default : defaulted s.mode name = true) :
    Grown s (configAppend s name val) := by
  refine ⟨rfl,rfl,rfl,[(name,val)],rfl,by simp,?_⟩
  intro e member
  rw [List.mem_singleton.mp member]
  exact ⟨unset,default⟩

theorem Grown.value_some {s t : Config} (grown : Grown s t) {name : Str} {val : Value}
    (there : s.value name = some val) :
    t.value name = some val := by
  obtain ⟨extra,vars,_⟩ := grown.vars
  rw [value_vars vars,there,Option.some_or]

theorem Grown.times_other {s t : Config} (grown : Grown s t) {name : Str} (never : defaulted s.mode name = false) :
    times name t.vars = times name s.vars := by
  obtain ⟨extra,vars,_,absent⟩ := grown.vars
  have elsewhere : times name extra = 0 := times_eq_zero.mpr <| first_none.mpr fun e member same => by
    rw [← same,(absent e member).2] at never
    cases never
  rw [vars,times_append,elsewhere,Nat.add_zero]

/-- No variable is repeated by lookups. -/
theorem Grown.times_le_one {s t : Config} (grown : Grown s t) {name : Str} (once : times name s.vars ≤ 1) :
    times name t.vars ≤ 1 := by
  obtain ⟨extra,vars,distinct,absent⟩ := grown.vars
  rw [vars,times_append]
  by_cases unset : s.value name = none
  · have := (@Bindings.times_le_one _ _ _ name) distinct
    have := times_eq_zero.mpr unset
    omega
  · have elsewhere : times name extra = 0 := times_eq_zero.mpr <| first_none.mpr fun e member same =>
      unset (same ▸ (absent e member).1)
    omega

/-! ## Lookups -/

theorem configFindWith_grown {buildDir : Str → Config → Option Value × Config}
    (builds : ∀ s, s.value buildDirName = none → Grown s (buildDir buildDirName s).2) (name : Str) (s : Config) :
    Grown s (configFindWith host buildDir name s).2 := by
  rw [configFindWith_eq]
  cases unset : s.value name with
  | some val => exact .refl s
  | none =>
    cases treats : treatment host s.mode s.trace name with
    | answer val => exact .refl s
    | append val => exact .append val unset (treatment_defaulted (.inl ⟨val,treats⟩))
    | buildDir =>
      cases treatment_buildDir treats
      exact builds s unset
    | rdomain =>
      dsimp only
      unfold configDefaultRdomain
      split <;> exact .same rfl rfl rfl rfl
    | forward name' => exact .refl s

theorem configInterpolateLookupWith_grown {find : Str → Config → Option Value × Config}
    (finds : ∀ name s, Grown s (find name s).2) (name : Str) (s : Config) :
    Grown s (configInterpolateLookupWith find name s).2 := by
  simp only [configInterpolateLookupWith]
  split
  · exact .refl s
  · exact finds name s

theorem interpolateStr_grown {lookup : Lookup Config} (looks : ∀ name s, Grown s (lookup name s).2) (ignore : Bool)
    (str : Str) (s : Config) : Grown s (interpolateStr lookup ignore str s).2 :=
  interpolateStr_invariant (fun name _ grown => grown.trans (looks name _)) ignore str (.refl s)

theorem configFindInner_grown (name : Str) (s : Config) : Grown s (configFindInner host name s).2 :=
  configFindWith_grown (fun _ _ => .same rfl rfl rfl rfl) name s

theorem configDefaultBuildDir_grown {s : Config} (unset : s.value buildDirName = none) :
    Grown s (configDefaultBuildDir host buildDirName s).2 := by
  have looks : ∀ name t, Grown s t ∧ t.value buildDirName = none →
      Grown s (configInterpolateLookupWith (configFindInner host) name t).2 ∧
        (configInterpolateLookupWith (configFindInner host) name t).2.value buildDirName = none := by
    intro name t ⟨grown,still⟩
    exact ⟨grown.trans (configInterpolateLookupWith_grown configFindInner_grown name t),
      (configInterpolateLookup_inner name t).trans still⟩
  have inner := interpolateStr_invariant looks false runningTemplate ⟨.refl s,unset⟩
  have known : defaulted s.mode buildDirName = true :=
    (@treatment_defaulted host _ s.trace _) (.inr (treatment_of_buildDir host s.mode s.trace))
  unfold configDefaultBuildDir configDefaultBuildDirWith
  split
  · next run => rw [run] at inner; exact inner.1
  · next run =>
    rw [run] at inner
    split
    · exact inner.1
    · split
      · exact inner.1
      · exact inner.1.trans (.append _ inner.2 (inner.1.mode ▸ known))

/-- A lookup appends its own default, and those it takes to compute it. -/
theorem configFind_grown (name : Str) (s : Config) : Grown s (configFind host name s).2 :=
  configFindWith_grown (fun _ => configDefaultBuildDir_grown) name s

theorem configInterpolateLookup_grown (name : Str) (s : Config) : Grown s (configInterpolateLookup host name s).2 :=
  configInterpolateLookupWith_grown configFind_grown name s

/-! ## Early interpolation -/

theorem early_table (mode : Mode) : ∀ gr ∈ grammar mode, gr.flags.early = true → appending gr.default = false := by
  cases mode <;> decide

/-- Nothing is appended for an early variable. -/
theorem early_defaulted {mode : Mode} {name : Str} (early : isEarlyVariable mode name = true) :
    defaulted mode name = false := by
  unfold isEarlyVariable at early
  unfold defaulted
  cases found : configFindGrammarForInterpolation mode name with
  | none => rfl
  | some gr =>
    rw [found] at early
    exact early_table mode gr (List.mem_of_find?_eq_some found) early

/-- A configuration that differs at most in the counter for `rdomain`. -/
structure Counted (s t : Config) : Prop where
  mode : t.mode = s.mode
  early : t.early = s.early
  canvasSteps : t.canvasSteps = s.canvasSteps
  vars : t.vars = s.vars

theorem Counted.refl (s : Config) : Counted s s := ⟨rfl,rfl,rfl,rfl⟩

theorem Counted.trans {s t u : Config} (before : Counted s t) (later : Counted t u) : Counted s u :=
  ⟨later.mode.trans before.mode,later.early.trans before.early,later.canvasSteps.trans before.canvasSteps,
    later.vars.trans before.vars⟩

theorem configFind_counted {name : Str} {s : Config} (known : defaulted s.mode name = false) :
    Counted s (configFind host name s).2 := by
  have never : ∀ {treats : Prop}, (treats → defaulted s.mode name = true) → ¬ treats := by
    intro treats default treated
    rw [default treated] at known
    cases known
  unfold configFind
  rw [configFindWith_eq]
  cases s.value name with
  | some val => exact .refl s
  | none =>
    cases treats : treatment host s.mode s.trace name with
    | append val => exact absurd (.inl ⟨val,treats⟩) (never treatment_defaulted)
    | buildDir => exact absurd (.inr treats) (never treatment_defaulted)
    | rdomain =>
      dsimp only
      unfold configDefaultRdomain
      split <;> exact ⟨rfl,rfl,rfl,rfl⟩
    | _ => exact .refl s

/-- An early interpolation appends nothing. -/
theorem configInterpolateEarly_counted (template : Str) {s : Config} (early : s.early = false) :
    Counted s (configInterpolateEarly host template s).2 := by
  have looks : ∀ name t, Counted { s with early := true } t →
      Counted { s with early := true } (configInterpolateLookup host name t).2 := by
    intro name t same
    simp only [configInterpolateLookup,configInterpolateLookupWith]
    split
    · exact same
    · next passed =>
      have asked : isEarlyVariable t.mode name = true := by simpa [same.early] using passed
      exact same.trans (configFind_counted (early_defaulted asked))
  have kept := interpolateStr_invariant looks true template (.refl _)
  exact ⟨kept.mode,early.symm,kept.canvasSteps,kept.vars⟩

/-! ## Statements -/

theorem runDirectory_grown {path : Str} {cf cf' : Config} (ran : runDirectory host path cf = some cf') :
    Grown cf cf' := by
  have grown := interpolateStr_grown (@configInterpolateLookup_grown host) false path cf
  unfold runDirectory at ran
  split at ran
  · cases ran
  · split at ran
    · next run =>
      split at ran
      · cases ran
        rw [run] at grown
        exact grown
      · cases ran
    · cases ran

/-- The variable of an environment is the only one that is new. -/
theorem runEnv_eq {path : Str} {xs : List Str} {cf cf' : Config} (early : cf.early = false)
    (ran : runEnv host path xs cf = some cf') :
    ∃ str, (configInterpolateEarly host (reference (regressname path "env".toList)) (configAppend cf
        (regressname path "env".toList) (.list (reference "regress-env".toList :: xs)))).1 = some str ∧
      Counted (configAppend cf (regressname path "env".toList) (.string str)) cf' := by
  have counted := (@configInterpolateEarly_counted host) (reference (regressname path "env".toList))
    (s := configAppend cf (regressname path "env".toList) (.list (reference "regress-env".toList :: xs))) early
  unfold runEnv at ran
  dsimp only at ran
  split at ran
  · cases ran
  · next str mid run =>
    cases ran
    rw [run] at counted ⊢
    refine ⟨str,rfl,counted.mode,counted.early,counted.canvasSteps,?_⟩
    have there : mid.vars = cf.vars ++
      [(regressname path "env".toList,.list (reference "regress-env".toList :: xs))] := counted.vars
    change mid.vars.set cf.vars.length _ = cf.vars ++ [_]
    rw [there,List.set_append_right _ _ (Nat.le_refl _),Nat.sub_self]
    rfl

theorem StepOption.run_grown (option : StepOption) (s : (List Str × Bool) × Config) :
    Grown s.2 (option.run host s).2 := by
  cases option with
  | command xs =>
    simp only [StepOption.run]
    split
    · exact .refl _
    · exact configFind_grown _ _
  | parallel => exact .refl _

theorem stepOptions_grown (options : List StepOption) (s : (List Str × Bool) × Config) :
    Grown s.2 (options.foldl (StepOption.run host) s).2 := by
  induction options generalizing s with
  | nil => exact .refl _
  | cons option options ih => exact (StepOption.run_grown option s).trans (ih _)

end Robsd.Growth
