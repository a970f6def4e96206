import Robsd.Configuration

/-!
What lookups leave behind in a configuration. Defaults that are appended on
demand are found again, so they make no difference; what does are the counter
for `rdomain` and the build directory, once it has been read. With these two as
the only memory, every lookup may as well start from the configuration as it was
(`fresh_simulates`), and without `rdomain`, which robsd-regress alone has, no
lookup makes a difference to another (`pure_simulates`).
-/
namespace Robsd.LookupMemo
open Robsd.Strings
open Robsd.Modes
open Robsd.Bindings
open Robsd.Configuration
open Robsd.Interpolate

/-! ## Treatment of absent variables -/

/-- What is done about a variable that is absent. -/
inductive Treatment where
  | answer (val : Option Value)
  | append (val : Value)
  | buildDir
  | rdomain
  | forward (name : Str)

/-- The value that is appended, if any. -/
def Treatment.appends : Treatment → Option Value
  | .append val => some val
  | _ => none

/-- The treatment by a function of `gr_default`. -/
def treat (host : Host) (trace : Bool) : DefaultFunction → Treatment
  | .buildDir => .buildDir
  | .rdomain => .rdomain
  | .parallel => .forward "parallel".toList
  | .regressTimeout => .forward "regress-timeout".toList
  | f => ((configDefault host (fun _ cf => (none,cf)) f [] { configAlloc .robsd with trace := trace }).1).elim
    (.answer none) .append

/-- The treatment the grammar gives a variable that is absent. -/
def treatment (host : Host) (mode : Mode) (trace : Bool) (name : Str) : Treatment :=
  match configFindGrammarForInterpolation mode name with
  | none => .answer none
  | some gr =>
    if gr.flags.req then .answer none
    else match gr.default with
      | .fn f => treat host trace f
      | _ => .answer (some (constant host gr))

theorem configDefault_eq (host : Host) (buildDir : Str → Config → Option Value × Config) (f : DefaultFunction)
    (name : Str) (cf : Config) :
    configDefault host buildDir f name cf =
      match treat host cf.trace f with
      | .answer val => (val,cf)
      | .append val => appended cf name val
      | .buildDir => buildDir name cf
      | .rdomain => configDefaultRdomain cf
      | .forward name' => (configFindConstant host name' cf,cf) := by
  cases f <;> rfl

/-- A lookup is a treatment of what is absent. -/
theorem configFindWith_eq (host : Host) (buildDir : Str → Config → Option Value × Config) (name : Str) (cf : Config) :
    configFindWith host buildDir name cf =
      match cf.value name with
      | some val => (some val,cf)
      | none =>
        match treatment host cf.mode cf.trace name with
        | .answer val => (val,cf)
        | .append val => appended cf name val
        | .buildDir => buildDir name cf
        | .rdomain => configDefaultRdomain cf
        | .forward name' => (configFindConstant host name' cf,cf) := by
  unfold configFindWith treatment
  cases cf.value name with
  | some val => rfl
  | none =>
    cases configFindGrammarForInterpolation cf.mode name with
    | none => rfl
    | some gr =>
      dsimp only
      split
      · rfl
      · cases gr.default with
        | fn f => exact configDefault_eq host buildDir f name cf
        | _ => rfl

/-- The name of the build directory. -/
def buildDirName : Str := "builddir".toList

theorem treat_buildDir {host : Host} {trace : Bool} {f : DefaultFunction} (treats : treat host trace f = .buildDir) :
    f = .buildDir := by
  cases f <;> first | rfl | cases treats

theorem treat_rdomain {host : Host} {trace : Bool} {f : DefaultFunction} (treats : treat host trace f = .rdomain) :
    f = .rdomain := by
  cases f <;> first | rfl | cases treats

/-- A treatment other than an answer comes from a function of the grammar. -/
theorem treatment_function {host : Host} {mode : Mode} {trace : Bool} {name : Str} {t : Treatment}
    (treats : treatment host mode trace name = t) (function : ∀ val, t ≠ .answer val) :
    ∃ gr ∈ grammar mode, ∃ f, grammarEquals gr name = true ∧ gr.default = .fn f ∧ treat host trace f = t := by
  unfold treatment at treats
  split at treats
  · exact absurd treats.symm (function _)
  · next gr found =>
    split at treats
    · exact absurd treats.symm (function _)
    · split at treats
      · next f default => exact ⟨gr,List.mem_of_find?_eq_some found,f,(List.find?_some found :),default,treats⟩
      · exact absurd treats.symm (function _)

theorem buildDir_table (mode : Mode) : ∀ gr ∈ grammar mode, gr.default = .fn .buildDir →
    gr.kw = buildDirName ∧ gr.flags.pat = false := by
  cases mode <;> decide

theorem rdomain_table (mode : Mode) (other : mode ≠ .robsdRegress) :
    ∀ gr ∈ grammar mode, gr.default ≠ .fn .rdomain := by
  cases mode with
  | robsdRegress => exact absurd rfl other
  | _ => decide

/-- Only the build directory is treated so. -/
theorem treatment_buildDir {host : Host} {mode : Mode} {trace : Bool} {name : Str}
    (treats : treatment host mode trace name = .buildDir) : name = buildDirName := by
  obtain ⟨gr,member,f,equals,default,treats⟩ := treatment_function treats nofun
  obtain ⟨kw,plain⟩ := buildDir_table mode gr member (default.trans (by rw [treat_buildDir treats]))
  simpa [grammarEquals,plain,kw,eq_comm] using equals

theorem treatment_rdomain {host : Host} {mode : Mode} {trace : Bool} {name : Str}
    (treats : treatment host mode trace name = .rdomain) : mode = .robsdRegress := by
  by_contra other
  obtain ⟨gr,member,f,_,default,treats⟩ := treatment_function treats nofun
  exact rdomain_table mode other gr member (default.trans (by rw [treat_rdomain treats]))

theorem treatment_of_buildDir (host : Host) (mode : Mode) (trace : Bool) :
    treatment host mode trace buildDirName = .buildDir := by
  have table : (configFindGrammarForInterpolation mode buildDirName).map (fun gr => (gr.flags.req,gr.default)) =
      some (false,.fn .buildDir) := by
    cases mode <;> decide +kernel
  obtain ⟨gr,found,fields⟩ := Option.map_eq_some_iff.mp table
  obtain ⟨req,default⟩ := Prod.mk.inj fields
  simp [treatment,found,req,default,treat]

/-- Whether the default of a grammar is a function. -/
def Default.isFunction : Default → Bool
  | .fn _ => true
  | _ => false

theorem treatment_constant {host : Host} {mode : Mode} {trace : Bool} {name : Str}
    (constant : (configFindGrammarForInterpolation mode name).all (fun gr => !Default.isFunction gr.default) = true) :
    (treatment host mode trace name).appends = none := by
  unfold treatment
  cases found : configFindGrammarForInterpolation mode name with
  | none => rfl
  | some gr =>
    rw [found] at constant
    dsimp only
    split
    · rfl
    · cases default : gr.default with
      | fn f => simp [default,Default.isFunction] at constant
      | _ => rfl

/-- A variable that stands for others is not the build directory, and nothing is
    appended for it. -/
theorem treatment_forward {host : Host} {mode : Mode} {trace : Bool} {name name' : Str}
    (treats : treatment host mode trace name = .forward name') :
    name' ≠ buildDirName ∧ (treatment host mode trace name').appends = none := by
  obtain ⟨_,_,f,_,_,treats⟩ := treatment_function treats nofun
  cases f with
  | parallel =>
    cases treats
    exact ⟨by decide,treatment_constant (by cases mode <;> decide)⟩
  | regressTimeout =>
    cases treats
    exact ⟨by decide,treatment_constant (by cases mode <;> decide)⟩
  | _ => cases treats

/-! ## Configurations that answer alike -/

/-- The value of a variable, or the one that would be appended for it. -/
def settled (host : Host) (cf : Config) (name : Str) : Option Value :=
  (cf.value name).or (treatment host cf.mode cf.trace name).appends

theorem settled_value {host : Host} {cf : Config} {name : Str}
    (kept : (treatment host cf.mode cf.trace name).appends = none) :
    settled host cf name = cf.value name := by
  simp [settled,kept]

/-- Configurations between which no lookup tells a difference. -/
structure Alike (host : Host) (s t : Config) : Prop where
  mode : s.mode = t.mode
  trace : s.trace = t.trace
  early : s.early = t.early
  rdomain : s.rdomain = t.rdomain
  settled : ∀ name, settled host s name = settled host t name

theorem Alike.refl (host : Host) (s : Config) : Alike host s s := ⟨rfl,rfl,rfl,rfl,fun _ => rfl⟩

theorem Alike.symm {host : Host} {s t : Config} (alike : Alike host s t) : Alike host t s :=
  ⟨alike.mode.symm,alike.trace.symm,alike.early.symm,alike.rdomain.symm,fun name => (alike.settled name).symm⟩

theorem Alike.trans {host : Host} {s t u : Config} (first : Alike host s t) (second : Alike host t u) :
    Alike host s u :=
  ⟨first.mode.trans second.mode,first.trace.trans second.trace,first.early.trans second.early,
    first.rdomain.trans second.rdomain,fun name => (first.settled name).trans (second.settled name)⟩

/-- A value that would be appended can be there as well. -/
theorem append_alike {host : Host} {cf : Config} {name : Str} {val : Value}
    (treats : treatment host cf.mode cf.trace name = .append val) : Alike host (configAppend cf name val) cf := by
  refine ⟨rfl,rfl,rfl,rfl,?_⟩
  intro name'
  change ((configAppend cf name val).value name').or (treatment host cf.mode cf.trace name').appends = _
  rw [configAppend_value,settled]
  by_cases same : name = name'
  · subst same
    cases there : cf.value name <;> simp [treats,Treatment.appends]
  · simp [same]

theorem alike_append {host : Host} {s t : Config} (name : Str) (val : Value) (alike : Alike host s t)
    (kept : (treatment host t.mode t.trace name).appends = none) :
    Alike host (configAppend s name val) (configAppend t name val) := by
  refine ⟨alike.mode,alike.trace,alike.early,alike.rdomain,?_⟩
  intro name'
  change ((configAppend s name val).value name').or (treatment host s.mode s.trace name').appends =
    ((configAppend t name val).value name').or (treatment host t.mode t.trace name').appends
  have key := alike.settled name'
  simp only [settled,alike.mode,alike.trace] at key ⊢
  rw [configAppend_value,configAppend_value]
  by_cases same : name = name'
  · subst same
    rw [kept] at key ⊢
    simp only [Option.or_none] at key ⊢
    rw [key]
  · simpa [same] using key

theorem alike_value {host : Host} {s t : Config} {name : Str} (alike : Alike host s t)
    (kept : (treatment host t.mode t.trace name).appends = none) : s.value name = t.value name := by
  have key := alike.settled name
  rwa [settled_value kept,settled_value (by rw [alike.mode,alike.trace]; exact kept)] at key

theorem configDefaultRdomain_alike {host : Host} {s t : Config} (alike : Alike host s t) :
    (configDefaultRdomain s).1 = (configDefaultRdomain t).1 ∧
      Alike host (configDefaultRdomain s).2 (configDefaultRdomain t).2 := by
  have related : ∀ n, Alike host { s with rdomain := n } { t with rdomain := n } := fun n =>
    ⟨alike.mode,alike.trace,alike.early,rfl,alike.settled⟩
  unfold configDefaultRdomain
  rw [alike.rdomain]
  split
  · exact ⟨rfl,related _⟩
  · exact ⟨rfl,related _⟩

/-- Configurations that are alike have the same answers, and are alike afterwards. -/
theorem configFindWith_alike {host : Host} {buildDir : Str → Config → Option Value × Config}
    (builds : ∀ s t, Alike host s t → (buildDir buildDirName s).1 = (buildDir buildDirName t).1 ∧
      Alike host (buildDir buildDirName s).2 (buildDir buildDirName t).2)
    (name : Str) {s t : Config} (alike : Alike host s t) :
    (configFindWith host buildDir name s).1 = (configFindWith host buildDir name t).1 ∧
      Alike host (configFindWith host buildDir name s).2 (configFindWith host buildDir name t).2 := by
  have key := alike.settled name
  rw [configFindWith_eq,configFindWith_eq]
  simp only [settled,alike.mode,alike.trace] at key ⊢
  cases treats : treatment host t.mode t.trace name with
  | append val =>
    have treats' : treatment host s.mode s.trace name = .append val := by rw [alike.mode,alike.trace]; exact treats
    rw [treats] at key
    simp only [Treatment.appends] at key
    cases there : s.value name with
    | none =>
      cases there' : t.value name with
      | none => exact ⟨rfl,(append_alike treats').trans (alike.trans (append_alike treats).symm)⟩
      | some val' =>
        rw [there,there'] at key
        cases key
        exact ⟨rfl,(append_alike treats').trans alike⟩
    | some val' =>
      cases there' : t.value name with
      | none =>
        rw [there,there'] at key
        cases key
        exact ⟨rfl,alike.trans (append_alike treats).symm⟩
      | some val'' =>
        rw [there,there'] at key
        cases key
        exact ⟨rfl,alike⟩
  | answer val =>
    rw [alike_value alike (by rw [treats]; rfl)]
    cases t.value name <;> exact ⟨rfl,alike⟩
  | buildDir =>
    rw [alike_value alike (by rw [treats]; rfl)]
    cases t.value name with
    | some val => exact ⟨rfl,alike⟩
    | none =>
      cases treatment_buildDir treats
      exact builds s t alike
  | rdomain =>
    rw [alike_value alike (by rw [treats]; rfl)]
    cases t.value name with
    | some val => exact ⟨rfl,alike⟩
    | none => exact configDefaultRdomain_alike alike
  | forward name' =>
    have constant : configFindConstant host name' s = configFindConstant host name' t := by
      rw [configFindConstant,configFindConstant,alike_value alike (treatment_forward treats).2,alike.mode]
    rw [alike_value alike (by rw [treats]; rfl)]
    cases t.value name with
    | some val => exact ⟨rfl,alike⟩
    | none => exact ⟨constant,alike⟩

theorem configInterpolateLookupWith_alike {host : Host} {find : Str → Config → Option Value × Config}
    (finds : ∀ name s t, Alike host s t → (find name s).1 = (find name t).1 ∧
      Alike host (find name s).2 (find name t).2)
    (name : Str) (s t : Config) (alike : Alike host s t) :
    (configInterpolateLookupWith find name s).1 = (configInterpolateLookupWith find name t).1 ∧
      Alike host (configInterpolateLookupWith find name s).2 (configInterpolateLookupWith find name t).2 := by
  obtain ⟨answer,after⟩ := finds name s t alike
  simp only [configInterpolateLookupWith,alike.early,alike.mode]
  split
  · exact ⟨rfl,alike⟩
  · exact ⟨by rw [answer],after⟩

theorem configFindInner_alike {host : Host} (name : Str) (s t : Config) (alike : Alike host s t) :
    (configFindInner host name s).1 = (configFindInner host name t).1 ∧
      Alike host (configFindInner host name s).2 (configFindInner host name t).2 :=
  configFindWith_alike (fun _ _ alike => ⟨rfl,alike.mode,alike.trace,alike.early,alike.rdomain,alike.settled⟩)
    name alike

theorem configDefaultBuildDir_alike {host : Host} (s t : Config) (alike : Alike host s t) :
    (configDefaultBuildDir host buildDirName s).1 = (configDefaultBuildDir host buildDirName t).1 ∧
      Alike host (configDefaultBuildDir host buildDirName s).2 (configDefaultBuildDir host buildDirName t).2 := by
  obtain ⟨answer,after⟩ := interpolateStr_simulates (configInterpolateLookupWith_alike (configFindInner_alike))
    false runningTemplate alike
  unfold configDefaultBuildDir configDefaultBuildDirWith
  cases run : interpolateStr (configInterpolateLookupWith (configFindInner host)) false runningTemplate s with
  | mk out s' =>
    cases run' : interpolateStr (configInterpolateLookupWith (configFindInner host)) false runningTemplate t with
    | mk out' t' =>
      rw [run,run'] at answer after
      dsimp only at answer after
      subst answer
      cases out with
      | error e => exact ⟨rfl,after⟩
      | ok path =>
        dsimp only
        cases host.read path with
        | none => exact ⟨rfl,after⟩
        | some text =>
          dsimp only
          cases strchr '\n' (text.takeWhile (· ≠ nul)) with
          | none => exact ⟨rfl,after⟩
          | some found =>
            refine ⟨rfl,alike_append _ _ after ?_⟩
            rw [treatment_of_buildDir]
            rfl

/-- Lookups in configurations that are alike. -/
theorem configFind_alike {host : Host} (name : Str) (s t : Config) (alike : Alike host s t) :
    (configFind host name s).1 = (configFind host name t).1 ∧
      Alike host (configFind host name s).2 (configFind host name t).2 :=
  configFindWith_alike configDefaultBuildDir_alike name alike

theorem configInterpolateLookup_alike {host : Host} (name : Str) (s t : Config) (alike : Alike host s t) :
    (configInterpolateLookup host name s).1 = (configInterpolateLookup host name t).1 ∧
      Alike host (configInterpolateLookup host name s).2 (configInterpolateLookup host name t).2 :=
  configInterpolateLookupWith_alike configFind_alike name s t alike

/-! ## What is kept -/

/-- A later configuration in which at most the counter and the build directory
    make a difference, the latter where it was absent. -/
structure Kept (host : Host) (s t : Config) : Prop where
  mode : t.mode = s.mode
  trace : t.trace = s.trace
  early : t.early = s.early
  settled : ∀ name, name ≠ buildDirName → settled host t name = settled host s name
  buildDir : ∀ val, s.value buildDirName = some val → t.value buildDirName = some val

theorem Kept.refl (host : Host) (s : Config) : Kept host s s := ⟨rfl,rfl,rfl,fun _ _ => rfl,fun _ => id⟩

theorem Kept.trans {host : Host} {s t u : Config} (first : Kept host s t) (second : Kept host t u) : Kept host s u :=
  ⟨second.mode.trans first.mode,second.trace.trans first.trace,second.early.trans first.early,
    fun name other => (second.settled name other).trans (first.settled name other),
    fun val there => second.buildDir val (first.buildDir val there)⟩

theorem settled_buildDir (host : Host) (cf : Config) : settled host cf buildDirName = cf.value buildDirName :=
  settled_value (by rw [treatment_of_buildDir]; rfl)

theorem alike_kept {host : Host} {s t : Config} (alike : Alike host t s) : Kept host s t := by
  refine ⟨alike.mode,alike.trace,alike.early,fun name _ => alike.settled name,?_⟩
  intro val there
  have key := alike.settled buildDirName
  rw [settled_buildDir,settled_buildDir] at key
  rw [key,there]

theorem kept_buildDir {host : Host} {s : Config} (val : Value) : Kept host s (configAppend s buildDirName val) := by
  refine ⟨rfl,rfl,rfl,?_,fun val' there => by simp [there]⟩
  intro name other
  change ((configAppend s buildDirName val).value name).or (treatment host s.mode s.trace name).appends = _
  rw [configAppend_value,if_neg (Ne.symm other),settled]
  simp

theorem kept_rdomain {host : Host} {s : Config} (n : Int) : Kept host s { s with rdomain := n } :=
  ⟨rfl,rfl,rfl,fun _ _ => rfl,fun _ => id⟩

theorem configFindWith_kept {host : Host} {buildDir : Str → Config → Option Value × Config}
    (builds : ∀ s, Kept host s (buildDir buildDirName s).2) (name : Str) (s : Config) :
    Kept host s (configFindWith host buildDir name s).2 := by
  rw [configFindWith_eq]
  cases s.value name with
  | some val => exact .refl host s
  | none =>
    cases treats : treatment host s.mode s.trace name with
    | answer val => exact .refl host s
    | append val => exact alike_kept (append_alike treats)
    | buildDir =>
      cases treatment_buildDir treats
      exact builds s
    | rdomain =>
      dsimp only
      unfold configDefaultRdomain
      split <;> exact kept_rdomain _
    | forward name' => exact .refl host s

theorem configInterpolateLookupWith_kept {host : Host} {find : Str → Config → Option Value × Config}
    (finds : ∀ name s, Kept host s (find name s).2) (name : Str) (s : Config) :
    Kept host s (configInterpolateLookupWith find name s).2 := by
  simp only [configInterpolateLookupWith]
  split
  · exact .refl host s
  · exact finds name s

theorem interpolateStr_kept {host : Host} {lookup : Lookup Config} (looks : ∀ name s, Kept host s (lookup name s).2)
    (ignore : Bool) (str : Str) (s : Config) : Kept host s (interpolateStr lookup ignore str s).2 :=
  interpolateStr_invariant (fun name _ kept => kept.trans (looks name _)) ignore str (.refl host s)

theorem configFindInner_kept (host : Host) (name : Str) (s : Config) : Kept host s (configFindInner host name s).2 :=
  configFindWith_kept (fun _ => ⟨rfl,rfl,rfl,fun _ _ => rfl,fun _ => id⟩) name s

theorem configDefaultBuildDirWith_kept {host : Host} {find : Str → Config → Option Value × Config}
    (finds : ∀ name s, Kept host s (find name s).2) (s : Config) :
    Kept host s (configDefaultBuildDirWith host find buildDirName s).2 := by
  have kept := interpolateStr_kept (configInterpolateLookupWith_kept finds) false runningTemplate s
  unfold configDefaultBuildDirWith
  split
  · next run => rw [run] at kept; exact kept
  · next run =>
    rw [run] at kept
    split
    · exact kept
    · split
      · exact kept
      · exact kept.trans (kept_buildDir _)

/-- A lookup keeps the configuration. -/
theorem configFind_kept {host : Host} (name : Str) (s : Config) : Kept host s (configFind host name s).2 :=
  configFindWith_kept (configDefaultBuildDirWith_kept (configFindInner_kept host)) name s

theorem configInterpolateLookup_kept {host : Host} (name : Str) (s : Config) :
    Kept host s (configInterpolateLookup host name s).2 :=
  configInterpolateLookupWith_kept configFind_kept name s

/-! ## The memory between lookups -/

/-- What makes a difference to later lookups. -/
structure Memo where
  rdomain : Int
  buildDir : Option Value
  deriving DecidableEq, Repr

/-- The memory of a configuration. -/
def memo (cf : Config) : Memo := ⟨cf.rdomain,cf.value buildDirName⟩

/-- A configuration with a later memory. -/
def recalled (cf : Config) (m : Memo) : Config :=
  { m.buildDir.elim cf (configAppend cf buildDirName) with rdomain := m.rdomain }

/-- The lookups of a configuration that remember nothing else. -/
def freshLookup (host : Host) (cf : Config) : Lookup Memo := fun name m =>
  ((configInterpolateLookup host name (recalled cf m)).1,memo (configInterpolateLookup host name (recalled cf m)).2)

theorem alike_memo {host : Host} {s t : Config} (alike : Alike host s t) : memo s = memo t := by
  simp only [memo,alike.rdomain,alike_value alike (by rw [treatment_of_buildDir]; rfl)]

/-- A configuration that was kept is alike to the one before, with its memory. -/
theorem recalled_alike {host : Host} {cf s : Config} (kept : Kept host cf s) : Alike host s (recalled cf (memo s)) := by
  cases there : s.value buildDirName with
  | none =>
    have unset : cf.value buildDirName = none := by
      cases before : cf.value buildDirName with
      | none => rfl
      | some val => rw [kept.buildDir val before] at there; cases there
    simp only [recalled,memo,there,Option.elim]
    refine ⟨kept.mode,kept.trace,kept.early,rfl,?_⟩
    intro name
    change settled host s name = settled host cf name
    by_cases same : name = buildDirName
    · rw [same,settled_buildDir,settled_buildDir,there,unset]
    · exact kept.settled name same
  | some val =>
    simp only [recalled,memo,there,Option.elim]
    refine ⟨kept.mode,kept.trace,kept.early,rfl,?_⟩
    intro name
    change settled host s name = settled host (configAppend cf buildDirName val) name
    by_cases same : name = buildDirName
    · rw [same,settled_buildDir,settled_buildDir,configAppend_value,if_pos rfl,there]
      cases before : cf.value buildDirName with
      | none => rfl
      | some val' => rw [kept.buildDir val' before] at there; exact there.symm
    · rw [kept.settled name same,(kept_buildDir (s := cf) val).settled name same]

/-- Lookups go as if each started from the configuration again, the memory apart. -/
theorem fresh_simulates {host : Host} {cf : Config} (name : Str) (s : Config) (m : Memo)
    (related : Kept host cf s ∧ memo s = m) :
    (configInterpolateLookup host name s).1 = (freshLookup host cf name m).1 ∧
      Kept host cf (configInterpolateLookup host name s).2 ∧
      memo (configInterpolateLookup host name s).2 = (freshLookup host cf name m).2 := by
  obtain ⟨kept,rfl⟩ := related
  obtain ⟨answer,after⟩ := configInterpolateLookup_alike name s _ (recalled_alike kept)
  exact ⟨answer,kept.trans (configInterpolateLookup_kept name s),alike_memo after⟩

/-! ## The build directory -/

section
variable {host : Host}

/-- A lookup of another name leaves the build directory as it is. -/
theorem configFindWith_elsewhere {buildDir : Str → Config → Option Value × Config} {name : Str}
    (elsewhere : name ≠ buildDirName) (cf : Config) :
    (configFindWith host buildDir name cf).2.value buildDirName = cf.value buildDirName := by
  rw [configFindWith_eq]
  cases cf.value name with
  | some val => rfl
  | none =>
    cases treats : treatment host cf.mode cf.trace name with
    | append val => simp [appended,elsewhere]
    | buildDir => exact absurd (treatment_buildDir treats) elsewhere
    | rdomain =>
      dsimp only
      unfold configDefaultRdomain
      split <;> rfl
    | _ => rfl

theorem configFindInner_buildDir (name : Str) (cf : Config) :
    (configFindInner host name cf).2.value buildDirName = cf.value buildDirName := by
  by_cases here : name = buildDirName
  · rw [here,configFindInner,configFindWith_eq]
    cases there : cf.value buildDirName with
    | some val => exact there
    | none =>
      rw [treatment_of_buildDir]
      exact there
  · exact configFindWith_elsewhere here cf

/-- The build directory does not turn up while it is computed. -/
theorem configInterpolateLookup_inner (name : Str) (cf : Config) :
    (configInterpolateLookupWith (configFindInner host) name cf).2.value buildDirName = cf.value buildDirName := by
  simp only [configInterpolateLookupWith]
  split
  · rfl
  · exact configFindInner_buildDir name cf

/-- The build directory is remembered as it was answered. -/
theorem configFind_buildDir (cf : Config) :
    (configFind host buildDirName cf).2.value buildDirName = (configFind host buildDirName cf).1 := by
  rw [configFind,configFindWith_eq]
  cases there : cf.value buildDirName with
  | some val => exact there
  | none =>
    rw [treatment_of_buildDir]
    have looks : ∀ name s, s.value buildDirName = none →
        (configInterpolateLookupWith (configFindInner host) name s).2.value buildDirName = none := fun name s unset =>
      (configInterpolateLookup_inner name s).trans unset
    have inner := interpolateStr_invariant looks false runningTemplate there
    dsimp only
    unfold configDefaultBuildDir configDefaultBuildDirWith
    split
    · next run => rw [run] at inner; exact inner
    · next run =>
      rw [run] at inner
      dsimp only at inner
      split
      · exact inner
      · split
        · exact inner
        · simp [appended,inner]

end

/-! ## Lookups without a counter -/

section
variable {host : Host} {s : Config} (other : s.mode ≠ .robsdRegress)
include other

theorem configFindWith_rdomain {buildDir : Str → Config → Option Value × Config}
    (builds : (buildDir buildDirName s).2.rdomain = s.rdomain) (name : Str) :
    (configFindWith host buildDir name s).2.rdomain = s.rdomain := by
  rw [configFindWith_eq]
  cases s.value name with
  | some val => rfl
  | none =>
    cases treats : treatment host s.mode s.trace name with
    | buildDir =>
      cases treatment_buildDir treats
      exact builds
    | rdomain => exact absurd (treatment_rdomain treats) other
    | _ => rfl

theorem configDefaultBuildDir_rdomain : (configDefaultBuildDir host buildDirName s).2.rdomain = s.rdomain := by
  have looks : ∀ name t, t.mode = s.mode ∧ t.rdomain = s.rdomain →
      (configInterpolateLookupWith (configFindInner host) name t).2.mode = s.mode ∧
        (configInterpolateLookupWith (configFindInner host) name t).2.rdomain = s.rdomain := by
    intro name t holds
    simp only [configInterpolateLookupWith]
    split
    · exact holds
    · exact ⟨(configFindInner_kept host name t).mode.trans holds.1,
        (configFindWith_rdomain (holds.1 ▸ other) rfl name).trans holds.2⟩
  have inner := interpolateStr_invariant looks false runningTemplate ⟨rfl,rfl⟩
  unfold configDefaultBuildDir configDefaultBuildDirWith
  split
  · next run => rw [run] at inner; exact inner.2
  · next run =>
    rw [run] at inner
    split
    · exact inner.2
    · split <;> exact inner.2

/-- The memory after a lookup. -/
theorem configFind_memo (name : Str) :
    memo (configFind host name s).2 =
      if name = buildDirName then ⟨s.rdomain,(configFind host buildDirName s).1⟩ else memo s := by
  have counter : (configFind host name s).2.rdomain = s.rdomain :=
    configFindWith_rdomain other (configDefaultBuildDir_rdomain other) name
  rw [memo,counter]
  by_cases here : name = buildDirName
  · rw [if_pos here,here,configFind_buildDir]
  · rw [if_neg here,configFind,configFindWith_elsewhere here]
    rfl

/-- The build directory makes no difference to other variables. -/
theorem configFind_append {name : Str} (elsewhere : name ≠ buildDirName) (val : Value) :
    (configFind host name (configAppend s buildDirName val)).1 = (configFind host name s).1 := by
  have values : ∀ name, name ≠ buildDirName → (configAppend s buildDirName val).value name = s.value name := by
    intro name elsewhere
    simp [Ne.symm elsewhere]
  unfold configFind
  rw [configFindWith_eq,configFindWith_eq,values name elsewhere]
  simp only [configAppend_mode,show (configAppend s buildDirName val).trace = s.trace from rfl]
  cases s.value name with
  | some val => rfl
  | none =>
    cases treats : treatment host s.mode s.trace name with
    | buildDir => exact absurd (treatment_buildDir treats) elsewhere
    | rdomain => exact absurd (treatment_rdomain treats) other
    | forward name' =>
      simp only [configFindConstant,values name' (treatment_forward treats).1,configAppend_mode]
    | _ => rfl

end

/-- A configuration reached by lookups where there is no counter: the build
    directory is what it would have been. -/
structure Reached (host : Host) (cf s : Config) : Prop where
  kept : Kept host cf s
  memory : memo s = memo cf ∨ memo s = ⟨cf.rdomain,(configFind host buildDirName cf).1⟩

theorem Reached.refl (host : Host) (cf : Config) : Reached host cf cf := ⟨.refl host cf,.inl rfl⟩

/-- Every lookup has the answer it has in the configuration itself. -/
theorem configFind_reached {host : Host} {cf s : Config} (other : cf.mode ≠ .robsdRegress) (reached : Reached host cf s)
    (name : Str) :
    (configFind host name s).1 = (configFind host name cf).1 ∧ Reached host cf (configFind host name s).2 := by
  obtain ⟨kept,memory⟩ := reached
  have later := kept.trans (configFind_kept name s)
  by_cases same : memo s = memo cf
  · have alike : Alike host s cf := by
      have alike := recalled_alike kept
      rw [same] at alike
      exact alike.trans (recalled_alike (.refl host cf)).symm
    obtain ⟨answer,after⟩ := configFind_alike name s cf alike
    refine ⟨answer,later,?_⟩
    rw [alike_memo after,configFind_memo other]
    split
    · exact .inr rfl
    · exact .inl rfl
  · have known := memory.resolve_left same
    cases there : (configFind host buildDirName cf).1 with
    | none =>
      refine absurd ?_ same
      rw [known,there,memo]
      cases before : cf.value buildDirName with
      | none => rfl
      | some val => rw [configFind_present before] at there; cases there
    | some val =>
      rw [there] at known
      obtain ⟨rdomain,value⟩ := Memo.mk.inj known
      by_cases here : name = buildDirName
      · subst here
        rw [configFind_present value,there]
        exact ⟨rfl,kept,memory⟩
      · have alike := recalled_alike kept
        rw [known] at alike
        refine ⟨(configFind_alike name s _ alike).1.trans (configFind_append other here val),later,?_⟩
        rw [configFind_memo (kept.mode ▸ other),if_neg here]
        exact memory

/-- Without a counter, interpolation takes every value from the configuration
    itself. -/
theorem pure_simulates {host : Host} {cf : Config} (other : cf.mode ≠ .robsdRegress) (name : Str) (s : Config)
    (t : Unit) (reached : Reached host cf s) :
    (configInterpolateLookup host name s).1 =
        (reading (fun name => (configInterpolateLookup host name cf).1) name t).1 ∧
      Reached host cf (configInterpolateLookup host name s).2 := by
  obtain ⟨answer,after⟩ := configFind_reached other reached name
  simp only [configInterpolateLookup,configInterpolateLookupWith,reading,reached.kept.mode,reached.kept.early]
  split
  · exact ⟨rfl,reached⟩
  · exact ⟨by rw [answer],after⟩

end Robsd.LookupMemo
