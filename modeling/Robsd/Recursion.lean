import Robsd.LookupMemo
import Robsd.References

/-!
The computation of the build directory (conf.c). It interpolates the place of a
file, starting over with the depth of references, and that may ask for the build
directory again. Here such computations can be nested as deep as wanted;
`interpolate_endless` and `interpolate_settles` tell the templates for which no
depth is enough from those for which all are the same.
-/
namespace Robsd.Recursion
open Robsd.Strings
open Robsd.Configuration
open Robsd.Interpolate
open Robsd.LookupMemo
open Robsd.References
open Robsd.Decimal (decimal_absent)

variable {host : Host}

/-- `config_find`, where the computation of the build directory may be nested in
    itself so many times. -/
def configFindWithin (host : Host) : Nat → Str → Config → Option Value × Config
  | 0 => configFind host
  | depth+1 => configFindWith host (configDefaultBuildDirWith host (configFindWithin host depth))

/-- `config_interpolate_lookup` on top of it. -/
def lookupWithin (host : Host) (depth : Nat) : Lookup Config :=
  configInterpolateLookupWith (configFindWithin host depth)

/-- The text of a variable, the build directory apart unless it is there. -/
def textOf (host : Host) (cf : Config) (name : Str) : Option Str := (configFindInner host name cf).1.bind Value.text

/-- A template leads to the build directory by the variables of a configuration. -/
def Leads (host : Host) (cf : Config) (str : Str) : Prop := Asks (textOf host cf) buildDirName 4 str

/-- The build directory is not known yet, the template leads to it and so does the
    place of the file that names it. -/
structure Endless (host : Host) (cf : Config) (str : Str) : Prop where
  unset : cf.value buildDirName = none
  leads : Leads host cf str
  again : Leads host cf runningTemplate

/-! ## Lookups of other names -/

theorem configFindWith_present {buildDir : Str → Config → Option Value × Config} {name : Str} {cf : Config}
    {val : Value} (there : cf.value name = some val) :
    configFindWith host buildDir name cf = (some val,cf) := by
  rw [configFindWith_eq,there]

theorem configFindWith_unset {buildDir : Str → Config → Option Value × Config} {cf : Config}
    (unset : cf.value buildDirName = none) :
    configFindWith host buildDir buildDirName cf = buildDir buildDirName cf := by
  rw [configFindWith_eq,unset,treatment_of_buildDir]

/-- How the build directory is computed makes no difference to other names. -/
theorem configFindWith_apart {buildDir : Str → Config → Option Value × Config} {name : Str}
    (other : name ≠ buildDirName) (cf : Config) :
    configFindWith host buildDir name cf = configFindInner host name cf := by
  rw [configFindInner,configFindWith_eq,configFindWith_eq]
  cases cf.value name with
  | some val => rfl
  | none =>
    cases treats : treatment host cf.mode cf.trace name with
    | buildDir => exact absurd (treatment_buildDir treats) other
    | _ => rfl

/-- A lookup that is the usual one for names other than the build directory. -/
def Usual (host : Host) (find : Str → Config → Option Value × Config) : Prop :=
  ∀ name cf, name ≠ buildDirName → find name cf = configFindInner host name cf

theorem configFindWithin_usual (depth : Nat) : Usual host (configFindWithin host depth) := by
  intro name cf other
  cases depth <;> exact configFindWith_apart other cf

theorem configFindInner_looped {name : Str} (other : name ≠ buildDirName) (cf : Config) :
    (configFindInner host name cf).2.looped = cf.looped := by
  rw [configFindInner,configFindWith_eq]
  cases cf.value name with
  | some val => rfl
  | none =>
    cases treats : treatment host cf.mode cf.trace name with
    | buildDir => exact absurd (treatment_buildDir treats) other
    | rdomain =>
      dsimp only
      unfold configDefaultRdomain
      split <;> rfl
    | _ => rfl

/-- Where the computation of the build directory ends up is where the interpolation
    of the place does, apart from the variable that is appended. -/
theorem configDefaultBuildDirWith_looped (find : Str → Config → Option Value × Config) (name : Str) (cf : Config) :
    (configDefaultBuildDirWith host find name cf).2.looped =
      (interpolateStr (configInterpolateLookupWith find) false runningTemplate cf).2.looped := by
  unfold configDefaultBuildDirWith
  cases interpolateStr (configInterpolateLookupWith find) false runningTemplate cf with
  | mk out cf =>
    cases out with
    | error e => rfl
    | ok path =>
      dsimp only
      cases host.read path with
      | none => rfl
      | some text =>
        dsimp only
        cases strchr '\n' (text.takeWhile (· ≠ nul)) with
        | none => rfl
        | some found => rfl

/-! ## A computation that does not end -/

/-- A lookup does not take back that there was no end. -/
def Sticks (find : Str → Config → Option Value × Config) : Prop :=
  ∀ name cf, cf.looped = true → (find name cf).2.looped = true

theorem sticks_lookup {find : Str → Config → Option Value × Config} (sticks : Sticks find) (name : Str) (cf : Config)
    (looped : cf.looped = true) : (configInterpolateLookupWith find name cf).2.looped = true := by
  simp only [configInterpolateLookupWith]
  split
  · exact looped
  · exact sticks name cf looped

theorem configFindWith_sticks {buildDir : Str → Config → Option Value × Config}
    (builds : ∀ cf, cf.looped = true → (buildDir buildDirName cf).2.looped = true) :
    Sticks (configFindWith host buildDir) := by
  intro name cf looped
  by_cases here : name = buildDirName
  · rw [here]
    cases there : cf.value buildDirName with
    | some val =>
      rw [configFindWith_present there]
      exact looped
    | none =>
      rw [configFindWith_unset there]
      exact builds cf looped
  · rw [configFindWith_apart here,configFindInner_looped here]
    exact looped

theorem configDefaultBuildDirWith_sticks {find : Str → Config → Option Value × Config} (sticks : Sticks find)
    (cf : Config) (looped : cf.looped = true) :
    (configDefaultBuildDirWith host find buildDirName cf).2.looped = true := by
  rw [configDefaultBuildDirWith_looped]
  exact interpolateStr_invariant (I := fun cf : Config => cf.looped = true) (sticks_lookup sticks) false
    runningTemplate looped

theorem configFindInner_sticks : Sticks (configFindInner host) := configFindWith_sticks fun _ _ => rfl

theorem configFindWithin_sticks : ∀ depth, Sticks (configFindWithin host depth)
  | 0 => configFindWith_sticks (configDefaultBuildDirWith_sticks configFindInner_sticks)
  | depth+1 => configFindWith_sticks (configDefaultBuildDirWith_sticks (configFindWithin_sticks depth))

/-! ## Lookups before the build directory is known -/

/-- A configuration that lookups reached without the build directory. -/
structure Open (host : Host) (cf s : Config) : Prop where
  kept : Kept host cf s
  unset : s.value buildDirName = none
  looped : s.looped = cf.looped

section
variable {cf : Config}

theorem Open.start (unset : cf.value buildDirName = none) : Open host cf cf := ⟨.refl host cf,unset,rfl⟩

theorem Open.find {s : Config} (reached : Open host cf s) {name : Str} (other : name ≠ buildDirName) :
    Open host cf (configFindInner host name s).2 :=
  ⟨reached.kept.trans (configFindInner_kept host name s),(configFindInner_buildDir name s).trans reached.unset,
    (configFindInner_looped other s).trans reached.looped⟩

/-- The counter makes a difference between numbers at most. -/
theorem textOf_counted (name : Str) (k : Int) :
    Answers (textOf host { cf with rdomain := k } name) (textOf host cf name) := by
  have value : Config.value { cf with rdomain := k } name = cf.value name := rfl
  have constants : ∀ name', configFindConstant host name' { cf with rdomain := k } =
    configFindConstant host name' cf := fun _ => rfl
  have counter : ∀ cf, ∃ n, (configDefaultRdomain cf).1 = some (.integer n) := by
    intro cf
    unfold configDefaultRdomain
    split <;> exact ⟨_,rfl⟩
  rw [textOf,textOf,configFindInner,configFindWith_eq,configFindWith_eq,value]
  cases cf.value name with
  | some val => exact .same _
  | none =>
    dsimp only
    cases treatment host cf.mode cf.trace name with
    | rdomain =>
      obtain ⟨n,first⟩ := counter { cf with rdomain := k }
      obtain ⟨n',second⟩ := counter cf
      simp only [first,second]
      exact .plain (decimal_absent n (by decide) (by decide)) (decimal_absent n' (by decide) (by decide))
    | _ => exact .same _

section
variable (early : cf.early = false)
include early

theorem Open.lookup {s : Config} (reached : Open host cf s) (find : Str → Config → Option Value × Config) (name : Str) :
    configInterpolateLookupWith find name s = ((find name s).1.bind Value.text,(find name s).2) := by
  rw [configInterpolateLookupWith,reached.kept.early,early]
  rfl

/-- Lookups answer by the texts of the variables as they were. -/
theorem lookup_follows {find : Str → Config → Option Value × Config} (usual : Usual host find) :
    Follows (Open host cf) (configInterpolateLookupWith find) (textOf host cf) buildDirName := by
  constructor
  · intro name s other reached
    have memory : recalled cf (memo s) = { cf with rdomain := s.rdomain } := by rw [memo,reached.unset]; rfl
    have alike := recalled_alike reached.kept
    rw [memory] at alike
    rw [reached.lookup early,usual name s other,(configFindInner_alike name s _ alike).1]
    exact textOf_counted name s.rdomain
  · intro name s other reached
    rw [reached.lookup early,usual name s other]
    exact reached.find other

/-- A template that leads to the build directory has no end where a lookup of it has
    none. -/
theorem leads_looped (unset : cf.value buildDirName = none) {find : Str → Config → Option Value × Config}
    (usual : Usual host find) (sticks : Sticks find)
    (falls : ∀ s, Open host cf s → (find buildDirName s).2.looped = true) {str : Str}
    (leads : Leads host cf str) {s : Config} (reached : Open host cf s) :
    (interpolateStr (configInterpolateLookupWith find) false str s).2.looped = true := by
  have absent : textOf host cf buildDirName = none := by
    rw [textOf,configFindInner,configFindWith_unset unset]
    rfl
  refine asks_reaches (lookup_follows early usual) (B := fun s => s.looped = true) absent ?_
    (sticks_lookup sticks) leads reached
  intro s reached
  rw [reached.lookup early]
  exact falls s reached

theorem configFindWithin_falls (unset : cf.value buildDirName = none) (again : Leads host cf runningTemplate) :
    ∀ depth s, Open host cf s → (configFindWithin host depth buildDirName s).2.looped = true
  | 0,s,reached => by
    rw [configFindWithin,configFind,configFindWith_unset reached.unset,configDefaultBuildDir,
      configDefaultBuildDirWith_looped]
    refine leads_looped early unset (fun _ _ _ => rfl) configFindInner_sticks ?_ again reached
    intro s reached
    rw [configFindInner,configFindWith_unset reached.unset]
  | depth+1,s,reached => by
    rw [configFindWithin,configFindWith_unset reached.unset,configDefaultBuildDirWith_looped]
    exact leads_looped early unset (configFindWithin_usual depth) (configFindWithin_sticks depth)
      (configFindWithin_falls unset again depth) again reached

/-- However deep the computations may be nested, it is not deep enough. -/
theorem interpolate_endless {str : Str} (endless : Endless host cf str) (depth : Nat) :
    (interpolateStr (lookupWithin host depth) false str cf).2.looped = true :=
  leads_looped early endless.unset (configFindWithin_usual depth) (configFindWithin_sticks depth)
    (configFindWithin_falls early endless.unset endless.again depth) endless.leads (.start endless.unset)

/-! ## A computation that ends -/

/-- A template that does not lead to the build directory is interpolated alike by all
    lookups. -/
theorem interpolate_usual {find : Str → Config → Option Value × Config} (usual : Usual host find) {str : Str}
    (apart : ¬ Leads host cf str) {s : Config} (reached : Open host cf s) :
    interpolateStr (configInterpolateLookupWith find) false str s =
        interpolateStr (configInterpolateLookupWith (configFindInner host)) false str s ∧
      Open host cf (interpolateStr (configInterpolateLookupWith (configFindInner host)) false str s).2 := by
  have elsewhere : ∀ name s, name ≠ buildDirName →
      configInterpolateLookupWith find name s = configInterpolateLookupWith (configFindInner host) name s := by
    intro name s other
    rw [configInterpolateLookupWith,configInterpolateLookupWith,usual name s other]
  obtain ⟨same,kept,_⟩ := interpolate_apart (lookup_follows early fun _ _ _ => rfl) elsewhere 4 str s apart reached
  exact ⟨same,kept⟩

/-- A configuration that lookups reached within computations that end. -/
structure Later (host : Host) (cf s : Config) : Prop where
  kept : Kept host cf s
  looped : s.looped = cf.looped

/-- The build directory is found alike however deep its computation may be nested, if
    the place of the file does not lead back to it. -/
theorem configFindWithin_settles (ends : cf.value buildDirName = none → ¬ Leads host cf runningTemplate) (depth : Nat)
    (name : Str) {s : Config} (reached : Later host cf s) :
    configFindWithin host depth name s = configFind host name s ∧ Later host cf (configFind host name s).2 := by
  have kept := reached.kept.trans (configFind_kept name s)
  by_cases here : name = buildDirName
  · rw [here] at kept ⊢
    cases there : s.value buildDirName with
    | some val =>
      have found : ∀ buildDir, configFindWith host buildDir buildDirName s = (some val,s) :=
        fun _ => configFindWith_present there
      refine ⟨?_,kept,?_⟩
      · cases depth with
        | zero => rfl
        | succ depth => rw [configFindWithin,configFind,found,found]
      · rw [configFind,found]
        exact reached.looped
    | none =>
      have unset : cf.value buildDirName = none := by
        cases before : cf.value buildDirName with
        | none => rfl
        | some val => rw [reached.kept.buildDir val before] at there; cases there
      have opened : Open host cf s := ⟨reached.kept,there,reached.looped⟩
      have inner := fun find usual => @interpolate_usual host cf early find usual runningTemplate (ends unset) s opened
      refine ⟨?_,kept,?_⟩
      · cases depth with
        | zero => rfl
        | succ depth =>
          rw [configFindWithin,configFind,configFindWith_unset there,configFindWith_unset there,configDefaultBuildDir,
            configDefaultBuildDirWith,configDefaultBuildDirWith,(inner _ (configFindWithin_usual depth)).1]
      · rw [configFind,configFindWith_unset there,configDefaultBuildDir,configDefaultBuildDirWith_looped]
        exact (inner _ fun _ _ _ => rfl).2.looped
  · refine ⟨(configFindWithin_usual depth name s here).trans (configFindWith_apart here s).symm,kept,?_⟩
    rw [configFind,configFindWith_apart here,configFindInner_looped here]
    exact reached.looped

/-- A template for which there is an end is interpolated alike however deep the
    computations may be nested. -/
theorem interpolate_settles {str : Str} (ends : ¬ Endless host cf str) (depth : Nat) :
    interpolateStr (lookupWithin host depth) false str cf = interpolateStr (configInterpolateLookup host) false str cf ∧
      Later host cf (interpolateStr (configInterpolateLookup host) false str cf).2 := by
  by_cases again : cf.value buildDirName = none ∧ Leads host cf runningTemplate
  · obtain ⟨unset,again⟩ := again
    have apart : ¬ Leads host cf str := fun leads => ends ⟨unset,leads,again⟩
    have inner := fun depth => interpolate_usual early (configFindWithin_usual depth) apart (.start unset)
    obtain ⟨same,opened⟩ := inner 0
    refine ⟨(inner depth).1.trans same.symm,?_⟩
    change Later host cf (interpolateStr (configInterpolateLookupWith (configFindWithin host 0)) false str cf).2
    rw [same]
    exact ⟨opened.kept,opened.looped⟩
  · have looks : ∀ name s t, s = t ∧ Later host cf t →
      (lookupWithin host depth name s).1 = (configInterpolateLookup host name t).1 ∧
        (lookupWithin host depth name s).2 = (configInterpolateLookup host name t).2 ∧
        Later host cf (configInterpolateLookup host name t).2 := by
      rintro name _ t ⟨rfl,reached⟩
      obtain ⟨same,later⟩ := configFindWithin_settles early (fun unset leads => again ⟨unset,leads⟩) depth name reached
      rw [lookupWithin,configInterpolateLookup,configInterpolateLookupWith,configInterpolateLookupWith,same]
      split
      · exact ⟨rfl,rfl,reached⟩
      · exact ⟨rfl,rfl,later⟩
    obtain ⟨answer,state,later⟩ := interpolateStr_simulates looks false str ⟨rfl,.refl host cf,rfl⟩
    exact ⟨Prod.ext answer state,later⟩

end
end
end Robsd.Recursion
