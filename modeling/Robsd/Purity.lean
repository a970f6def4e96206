import Robsd.Rdomain
import Robsd.LookupMemo

/-!
Lookups that do not reach `${rdomain}` have the same value whatever was looked up
before. The counter is the only state a lookup can tell: what the other defaults
append is what they would compute again.
-/
namespace Robsd.Purity
open Robsd.Strings
open Robsd.Modes
open Robsd.Bindings
open Robsd.Configuration
open Robsd.Interpolate
open Robsd.LookupMemo
open Robsd.Rdomain (rdomain)
variable {host : Host}

/-! ## Sequences of lookups -/

/-- The ways in which variables are looked up. -/
inductive Query where
  | find (name : Str)
  | str (template : Str)
  | file (text : Str)
  deriving DecidableEq, Repr

/-- The configuration after a lookup: `config_find`, `config_interpolate_str` or
    `config_interpolate_file`. -/
def Query.after (host : Host) : Query → Config → Config
  | .find name,cf => (configFind host name cf).2
  | .str template,cf => (configInterpolateStr host template cf).2
  | .file text,cf => (interpolateFile (configInterpolateLookup host) false text 0 cf).2

/-- The configuration after a sequence of lookups. -/
def afterAll (host : Host) (queries : List Query) (cf : Config) : Config :=
  queries.foldl (fun cf q => q.after host cf) cf

/-- The names asked for by `config_find`, the one it is given included. -/
def asked (host : Host) (cf : Config) (name : Str) : List Str :=
  name :: match cf.value name,treatment host cf.mode cf.trace name with
    | none,.buildDir =>
      (interpolateStr (recording (configInterpolateLookupWith (configFindInner host))) false
        runningTemplate (cf,[])).2.2
    | none,.forward name' => [name']
    | _,_ => []

/-- Looking the name up resolves `${rdomain}`. -/
def Reaches (host : Host) (cf : Config) (name : Str) : Prop := rdomain ∈ asked host cf name

/-- What every single lookup preserves, a sequence preserves. -/
theorem afterAll_invariant {I : Config → Prop} (looks : ∀ name s, I s → I (configFind host name s).2)
    (queries : List Query) {cf : Config} (holds : I cf) :
    I (afterAll host queries cf) := by
  have interpolates : ∀ name s, I s → I (configInterpolateLookup host name s).2 := by
    intro name s holds
    simp only [configInterpolateLookup,configInterpolateLookupWith]
    split
    · exact holds
    · exact looks name s holds
  induction queries generalizing cf with
  | nil => exact holds
  | cons q queries ih =>
    apply ih
    cases q with
    | find name => exact looks name cf holds
    | str template => exact interpolateStr_invariant interpolates false template holds
    | file text => exact interpolateFile_invariant interpolates text 0 holds

/-! ## The counter -/

theorem rdomain_name (mode : Mode) :
    ∀ gr ∈ grammar mode, gr.default = .fn .rdomain → gr.kw = rdomain ∧ gr.flags.pat = false := by
  cases mode <;> decide

/-- Only `rdomain` is counted. -/
theorem treatment_rdomain_name {mode : Mode} {trace : Bool} {name : Str}
    (treats : treatment host mode trace name = .rdomain) : name = rdomain := by
  obtain ⟨gr,member,f,equals,default,treats⟩ := treatment_function treats nofun
  obtain ⟨kw,plain⟩ := rdomain_name mode gr member (default.trans (by rw [treat_rdomain treats]))
  simpa [grammarEquals,plain,kw,eq_comm] using equals

/-- A configuration whose counter is at another number. -/
def counted (k : Int) (cf : Config) : Config := { cf with rdomain := k }

@[simp] theorem counted_mode (k : Int) (cf : Config) : (counted k cf).mode = cf.mode := rfl

@[simp] theorem counted_early (k : Int) (cf : Config) : (counted k cf).early = cf.early := rfl

@[simp] theorem counted_trace (k : Int) (cf : Config) : (counted k cf).trace = cf.trace := rfl

@[simp] theorem counted_value (k : Int) (cf : Config) (name : Str) : (counted k cf).value name = cf.value name := rfl

/-- Lookups of other names commute with the counter. -/
theorem configFindWith_counted {buildDir : Str → Config → Option Value × Config} {k : Int} {name : Str} {cf : Config}
    (other : name ≠ rdomain)
    (builds : cf.value name = none → treatment host cf.mode cf.trace name = .buildDir →
      buildDir name (counted k cf) = ((buildDir name cf).1,counted k (buildDir name cf).2)) :
    configFindWith host buildDir name (counted k cf) =
      ((configFindWith host buildDir name cf).1,counted k (configFindWith host buildDir name cf).2) := by
  rw [configFindWith_eq,configFindWith_eq,counted_value,counted_mode,counted_trace]
  cases unset : cf.value name with
  | some val => rfl
  | none =>
    cases treats : treatment host cf.mode cf.trace name with
    | rdomain => exact absurd (treatment_rdomain_name treats) other
    | buildDir => exact builds unset treats
    | _ => rfl

theorem configFindInner_counted {k : Int} {name : Str} {cf : Config} (other : name ≠ rdomain) :
    configFindInner host name (counted k cf) = ((configFindInner host name cf).1,
      counted k (configFindInner host name cf).2) :=
  configFindWith_counted other fun _ _ => rfl

/-- The build directory does not depend on the counter unless the path of the file
    that names it does. -/
theorem configDefaultBuildDir_counted {k : Int} {cf : Config} (apart : rdomain ∉ (interpolateStr
      (recording (configInterpolateLookupWith (configFindInner host))) false runningTemplate (cf,[])).2.2)
        (name : Str) :
    configDefaultBuildDir host name (counted k cf) =
      ((configDefaultBuildDir host name cf).1,counted k (configDefaultBuildDir host name cf).2) := by
  have looks : ∀ name s t, name ≠ rdomain → t = counted k s →
      (configInterpolateLookupWith (configFindInner host) name s).1 =
          (configInterpolateLookupWith (configFindInner host) name t).1 ∧
        (configInterpolateLookupWith (configFindInner host) name t).2 =
          counted k (configInterpolateLookupWith (configFindInner host) name s).2 := by
    rintro name s _ other rfl
    simp only [configInterpolateLookupWith,configFindInner_counted other,counted_early,counted_mode]
    split <;> exact ⟨rfl,rfl⟩
  obtain ⟨answer,after⟩ := recording_until (R := fun s t => t = counted k s) looks false runningTemplate rfl apart
  unfold configDefaultBuildDir configDefaultBuildDirWith
  cases run : interpolateStr (configInterpolateLookupWith (configFindInner host)) false runningTemplate cf with
  | mk out s =>
    cases run' : interpolateStr (configInterpolateLookupWith (configFindInner host)) false
      runningTemplate (counted k cf) with
    | mk out' t =>
      rw [run,run'] at answer after
      dsimp only at answer after
      subst answer after
      cases out with
      | error e => rfl
      | ok path =>
        dsimp only
        cases host.read path with
        | none => rfl
        | some text =>
          dsimp only
          cases strchr '\n' (text.takeWhile (· ≠ nul)) <;> rfl

theorem configFind_counted {k : Int} {name : Str} {cf : Config} (apart : ¬ Reaches host cf name) :
    configFind host name (counted k cf) = ((configFind host name cf).1,counted k (configFind host name cf).2) := by
  refine configFindWith_counted (fun same => apart (same ▸ List.mem_cons_self)) fun unset treats =>
    configDefaultBuildDir_counted (fun inside => apart ?_) name
  simp only [Reaches,asked,unset,treats]
  exact List.mem_cons_of_mem _ inside

/-! ## Purity -/

/-- A configuration reached by lookups. -/
structure Later (host : Host) (cf s : Config) : Prop where
  kept : Kept host cf s
  buildDir : ¬ Reaches host cf buildDirName →
    s.value buildDirName = cf.value buildDirName ∨ s.value buildDirName = (configFind host buildDirName cf).1

/-- Other variables than the build directory are found by what is settled. -/
theorem configFind_kept_answer {cf s : Config} {name : Str} (kept : Kept host cf s) (elsewhere : name ≠ buildDirName)
    (other : name ≠ rdomain) : (configFind host name s).1 = (configFind host name cf).1 := by
  have key := kept.settled name elsewhere
  simp only [settled,kept.mode,kept.trace] at key
  rw [configFind,configFindWith_eq,configFindWith_eq,kept.mode,kept.trace]
  cases treats : treatment host cf.mode cf.trace name with
  | answer val =>
    rw [treats] at key
    simp only [Treatment.appends,Option.or_none] at key
    rw [key]
    cases cf.value name <;> rfl
  | append val =>
    rw [treats] at key
    simp only [Treatment.appends] at key
    cases there : s.value name <;> cases there' : cf.value name <;> rw [there,there'] at key <;> exact key
  | buildDir => exact absurd (treatment_buildDir treats) elsewhere
  | rdomain => exact absurd (treatment_rdomain_name treats) other
  | forward name' =>
    obtain ⟨elsewhere',constant⟩ := treatment_forward treats
    have key' := kept.settled name' elsewhere'
    simp only [settled,kept.mode,kept.trace,constant,Option.or_none] at key'
    rw [treats] at key
    simp only [Treatment.appends,Option.or_none] at key
    simp only [key,configFindConstant,key',kept.mode]
    cases cf.value name <;> rfl

/-- The build directory is found as it was, or as it would have been. -/
theorem configFind_later_buildDir {cf s : Config} (later : Later host cf s) (apart : ¬ Reaches host cf buildDirName) :
    (configFind host buildDirName s).1 = (configFind host buildDirName cf).1 := by
  cases there : s.value buildDirName with
  | some val =>
    rw [configFind_present there]
    rcases later.buildDir apart with same | same
    · rw [configFind_present (same.symm.trans there)]
    · exact there.symm.trans same
  | none =>
    have alike := recalled_alike later.kept
    have back : recalled cf (memo s) = counted s.rdomain cf := by simp only [recalled,memo,there,Option.elim]; rfl
    rw [(configFind_alike buildDirName s _ alike).1,back,configFind_counted apart]

theorem configFind_later {cf s : Config} (name : Str) (later : Later host cf s) :
    Later host cf (configFind host name s).2 := by
  refine ⟨later.kept.trans (configFind_kept name s),?_⟩
  intro apart
  by_cases here : name = buildDirName
  · rw [here,configFind_buildDir]
    exact .inr (configFind_later_buildDir later apart)
  · rw [configFind,configFindWith_elsewhere here]
    exact later.buildDir apart

theorem afterAll_later (queries : List Query) (cf : Config) : Later host cf (afterAll host queries cf) :=
  afterAll_invariant (fun name _ => configFind_later name) queries ⟨.refl host cf,fun _ => .inl rfl⟩

/-- No sequence of lookups makes a difference to a name that does not reach
    `${rdomain}`. -/
theorem lookups_pure (host : Host) (cf : Config) (queries : List Query) (name : Str) (apart : ¬ Reaches host cf name) :
    (configFind host name (afterAll host queries cf)).1 = (configFind host name cf).1 := by
  have later := @afterAll_later host queries cf
  by_cases here : name = buildDirName
  · subst here
    exact configFind_later_buildDir later apart
  · exact configFind_kept_answer later.kept here fun same => apart (same ▸ List.mem_cons_self)

/-- Nor to an interpolation that does not ask for it, where the build directory
    does not reach it. -/
theorem interpolation_pure {cf : Config} {template : Str} (apart : ¬ Reaches host cf buildDirName)
    (plain : rdomain ∉ (interpolateStr (recording (configInterpolateLookup host)) false template (cf,[])).2.2)
    (queries : List Query) :
    (configInterpolateStr host template (afterAll host queries cf)).1 = (configInterpolateStr host template cf).1 := by
  have looks : ∀ name s t, name ≠ rdomain → Later host cf s ∧ Later host cf t →
      (configInterpolateLookup host name s).1 = (configInterpolateLookup host name t).1 ∧
        Later host cf (configInterpolateLookup host name s).2 ∧
          Later host cf (configInterpolateLookup host name t).2 := by
    intro name s t other ⟨first,second⟩
    have answer : (configFind host name s).1 = (configFind host name t).1 := by
      by_cases here : name = buildDirName
      · subst here
        exact (configFind_later_buildDir first apart).trans (configFind_later_buildDir second apart).symm
      · exact (configFind_kept_answer first.kept here other).trans (configFind_kept_answer second.kept here other).symm
    simp only [configInterpolateLookup,configInterpolateLookupWith,first.kept.early,first.kept.mode,second.kept.early,
      second.kept.mode]
    split
    · exact ⟨rfl,first,second⟩
    · exact ⟨by rw [answer],configFind_later name first,configFind_later name second⟩
  have both := recording_until (R := fun s t => Later host cf s ∧ Later host cf t) looks false template
    ⟨⟨.refl host cf,fun _ => .inl rfl⟩,afterAll_later queries cf⟩ plain
  rw [configInterpolateStr,configInterpolateStr,both.1]

/-- A configuration whose build directory is named by a file at a plain path. -/
def plainRegress : Config := configAppend (configAlloc .robsdRegress) "robsddir".toList (.string "/home/robsd".toList)

theorem plainRegress_builddir (host : Host) : ¬ Reaches host plainRegress buildDirName := by
  have unset : plainRegress.value buildDirName = none := by decide
  have robsddir : recording (configInterpolateLookupWith (configFindInner host)) "robsddir".toList (plainRegress,[]) =
      (some "/home/robsd".toList,plainRegress,["robsddir".toList]) := rfl
  have path := interpolateStr_running (by decide) robsddir
  simp only [Reaches,asked,unset,treatment_of_buildDir,path]
  decide

theorem lookups_pure_builddir : ∃ host : Host, ¬ Reaches host plainRegress buildDirName ∧
    (configFind host buildDirName (afterAll host
      [.find rdomain,.str "$\x7bbuilddir\x7d on $\x7brdomain\x7d".toList] plainRegress)).1 =
    (configFind host buildDirName plainRegress).1 :=
  ⟨{ RegressRoundTrip.sampleHost with read := fun _ => some "/home/robsd/2024-05-01.1\n".toList },
    plainRegress_builddir _,lookups_pure _ plainRegress _ _ (plainRegress_builddir _)⟩

end Robsd.Purity
