import Robsd.Effects
import Robsd.RegressRoundTrip

/-!
How often a variable is there after a configuration was parsed. The names that
each statement appends are counted, and with them the entries that each keyword
of the grammar ends up with.
-/
namespace Robsd.Redefinition
open Robsd.Strings
open Robsd.Modes
open Robsd.Bindings
open Robsd.Configuration
open Robsd.ConfigParse
open Robsd.RegressConfig (regressname_inj regressname_ne suiteNamed keyword_mem)
open Robsd.Statements
open Robsd.Growth (defaulted)
open Robsd.Effects
open Robsd.RegressRoundTrip (sampleHost)
variable {host : Host}

/-- How often a keyword is given. -/
def given (kw : Str) (sts : List Statement) : Nat := sts.countP (·.kw = kw)

/-! ## Keywords -/

/-- The lists that several statements share, and the variable of the steps. -/
def Shared (name : Str) : Prop :=
  name ∈ ["regress".toList,"regress-obj".toList,"regress-packages".toList,"regress-env".toList,"step".toList] ∨
    ∃ path, name = regressname path "targets".toList

theorem optionLists_shared {path name : Str} {option : SuiteOption} (grown : name ∈ optionLists path option) :
    Shared name := by
  cases option with
  | obj | packages =>
    rw [List.mem_singleton.mp grown]
    exact .inl (by simp)
  | targets => exact .inr ⟨path,List.mem_singleton.mp grown⟩
  | _ => cases grown

/-- The lists that statements grow are shared. -/
theorem statementLists_shared {mode : Mode} {st : Statement} {name : Str}
    (grown : name ∈ statementLists mode st) :
    Shared name := by
  unfold statementLists at grown
  cases found : configFindGrammarForKeyword mode st.kw with
  | none => rw [found] at grown; cases grown
  | some pair =>
    obtain ⟨gr,fn⟩ := pair
    rw [found,Option.elim_some] at grown
    unfold argumentLists at grown
    split at grown
    · rw [List.mem_singleton.mp grown]
      exact .inl (by simp)
    · rcases List.mem_append.mp grown with inside | last
      · obtain ⟨option,_,among⟩ := List.mem_flatMap.mp inside
        exact optionLists_shared among
      · rw [List.mem_singleton.mp last]
        exact .inl (by simp)
    · next step =>
      obtain ⟨member,parses,kw⟩ := keyword_mem found
      have named : gr.kw = "step".toList := step_table mode gr member (parses.trans (congrArg some step))
      rw [List.mem_singleton.mp grown,← kw,named]
      exact .inl (by simp)
    · cases grown

theorem statements_shared {mode : Mode} {sts : List Statement} {name : Str} (own : ¬ Shared name) :
    name ∉ sts.flatMap (statementLists mode) := by
  intro grown
  obtain ⟨st,_,among⟩ := List.mem_flatMap.mp grown
  exact own (statementLists_shared among)

/-- The keywords that must not be repeated: each has variables of its own. -/
theorem single_table (mode : Mode) : ∀ gr ∈ grammar mode, gr.fn.isSome → gr.flags.rep = false →
    defaulted mode gr.kw = false ∧ suiteNamed gr.kw = false ∧
    gr.kw ∉ ["regress".toList,"regress-obj".toList,"regress-packages".toList,"regress-env".toList,"step".toList] ∧
    gr.fn ∉ [some .regressEnv,some .regress,some .canvasStep] ∧
    (gr.fn = some .canvasDirectory ↔ mode = .canvas ∧ gr.kw = "canvas-dir".toList) := by
  cases mode <;> decide +kernel

theorem rep_table (mode : Mode) : ∀ gr ∈ grammar mode, gr.flags.rep = true →
    gr.fn ∈ [some .regressEnv,some .regress,some .canvasStep] := by
  cases mode <;> decide

/-- What is known of a keyword that can be given once at most. -/
structure Single (mode : Mode) (kw : Str) (gr : Grammar) (fn : Parser) : Prop where
  found : configFindGrammarForKeyword mode kw = some (gr,fn)
  rep : gr.flags.rep = false
  plain : defaulted mode kw = false
  notSuite : suiteNamed kw = false
  own : ¬ Shared kw
  other : fn ∉ [Parser.regressEnv,.regress,.canvasStep]
  canvas : fn = .canvasDirectory ↔ mode = .canvas ∧ kw = "canvas-dir".toList

theorem single_of_found {mode : Mode} {kw : Str} {gr : Grammar} {fn : Parser}
    (found : configFindGrammarForKeyword mode kw = some (gr,fn)) (rep : gr.flags.rep = false) :
    Single mode kw gr fn := by
  obtain ⟨member,parses,rfl⟩ := keyword_mem found
  obtain ⟨plain,notSuite,unshared,other,canvas⟩ := single_table mode gr member (by rw [parses]; rfl) rep
  rw [parses] at other canvas
  refine ⟨found,rep,plain,notSuite,?_,by simpa using other,by simpa using canvas⟩
  rintro (fixed | ⟨path,same⟩)
  · exact unshared fixed
  · exact regressname_ne notSuite same.symm

/-- Whether a statement is a pattern without a match. -/
def unmatched (host : Host) (mode : Mode) (st : Statement) : Bool :=
  match configFindGrammarForKeyword mode st.kw,st.arg with
  | some (_,.glob),.string str => matchless host str
  | _,_ => false

/-- A statement that may not be repeated gives its variable, unless it is a pattern without a match. -/
theorem single_bound {mode : Mode} {st : Statement} {gr : Grammar} {fn : Parser} (single : Single mode st.kw gr fn)
    (matched : unmatched host mode st = false) : st.kw ∈ statementBound host mode st := by
  obtain ⟨kw,arg⟩ := st
  obtain ⟨found,_,_,_,_,other,canvas⟩ := single
  simp only [unmatched,found] at matched
  simp only [statementBound,found,Option.elim_some]
  cases fn with
  | regressEnv | regress | canvasStep => exact absurd (by simp) other
  | canvasDirectory => exact List.mem_cons.mpr (.inl (canvas.mp rfl).2)
  | glob =>
    cases arg with
    | string str =>
      dsimp only at matched
      simp only [argumentBound,matched]
      simp
    | _ => simp [argumentBound]
  | _ => simp [argumentBound]

/-- A keyword that has its variable is not given any more. -/
theorem given_later {kw : Str} {gr : Grammar} {fn : Parser} :
    ∀ (sts : List Statement) {s t : Config}, Single s.mode kw gr fn →
    s.early = false → runAll host sts s = some t → 0 < entries kw s → given kw sts = 0
  | [],_,_,_,_,_,_ => rfl
  | st :: sts,s,t,single,early,ran,there => by
    rw [runAll,List.foldlM_cons] at ran
    obtain ⟨mid,first,later⟩ := Option.bind_eq_some_iff.mp ran
    have adds := statement_adds early first
    have still : 0 < entries kw mid := by
      rw [adds.exact kw single.plain (mt statementLists_shared single.own)]
      omega
    have other : st.kw ≠ kw := by
      rintro rfl
      have present : configPresent s st.kw = true := by
        rw [configPresent,Option.isSome_iff_ne_none]
        exact mt times_eq_zero.mpr (Nat.ne_of_gt there)
      unfold Statement.run at first
      simp [single.found,single.rep,present] at first
    have rest := given_later sts (adds.mode ▸ single) (adds.early.trans early) later still
    rw [given,List.countP_cons_of_neg (by simpa using other)]
    exact rest

/-- A keyword that is repeated though it must not be has patterns without a match up
    to the last time. -/
theorem repeated_unmatched : ∀ (sts : List Statement) {s t : Config}, s.early = false → runAll host sts s = some t →
    sts.Pairwise fun st st' => st.kw = st'.kw → (∃ gr fn, Single s.mode st.kw gr fn) → unmatched host s.mode st = true
  | [],_,_,_,_ => .nil
  | st :: sts,s,t,early,ran => by
    rw [runAll,List.foldlM_cons] at ran
    obtain ⟨mid,first,later⟩ := Option.bind_eq_some_iff.mp ran
    have adds := statement_adds early first
    have rest := repeated_unmatched sts (adds.early.trans early) later
    rw [adds.mode] at rest
    refine .cons ?_ rest
    intro st' member same single
    by_contra matched
    obtain ⟨gr,fn,single⟩ := single
    have appended := single_bound single (Bool.not_eq_true _ ▸ matched)
    have there : 0 < entries st.kw mid := by
      rw [adds.exact st.kw single.plain (mt statementLists_shared single.own)]
      exact Nat.add_pos_right _ (List.count_pos_iff.mpr appended)
    have none := given_later sts (adds.mode ▸ single) (adds.early.trans early) later there
    exact List.countP_eq_zero.mp none st' member (by simpa using same.symm)

/-- Statements in a row give no keyword of a kind twice. -/
theorem given_le_one_iff {P : Str → Prop} {sts : List Statement} :
    (∀ kw, P kw → given kw sts ≤ 1) ↔ sts.Pairwise fun st st' => st.kw = st'.kw → ¬ P st.kw := by
  induction sts with
  | nil => simp [given]
  | cons st sts ih =>
    rw [List.pairwise_cons,← ih]
    constructor
    · intro once
      refine ⟨?_,?_⟩
      · intro st' member same kind
        have twice := once st.kw kind
        have later : 0 < given st.kw sts := List.countP_pos_iff.mpr ⟨st',member,by simpa using same.symm⟩
        rw [given,List.countP_cons_of_pos (by simp)] at twice
        unfold given at later
        omega
      · intro kw kind
        have less := once kw kind
        have grows : given kw sts ≤ given kw (st :: sts) := (List.sublist_cons_self st sts).countP_le
        omega
    · rintro ⟨apart,once⟩ kw kind
      by_cases here : st.kw = kw
      · subst here
        have none : given st.kw sts = 0 := List.countP_eq_zero.mpr fun st' member same =>
          apart st' member (by simpa using (of_decide_eq_true same).symm) kind
        rw [given,List.countP_cons_of_pos (by simp)]
        exact Nat.succ_le_succ (Nat.le_of_eq none)
      · rw [given,List.countP_cons_of_neg (by simpa using here)]
        exact once kw kind

/-! ## Counts -/

/-- A statement that runs in some configuration of a mode. -/
def Runs (host : Host) (mode : Mode) (st : Statement) : Prop :=
  ∃ gr fn s t, configFindGrammarForKeyword mode st.kw = some (gr,fn) ∧ st.arg.run host st.kw s fn = some t

theorem runAll_runs : ∀ (sts : List Statement) {s t : Config}, s.early = false → runAll host sts s = some t →
    ∀ st ∈ sts, Runs host s.mode st
  | [],_,_,_,_ => fun _ impossible => by cases impossible
  | st :: sts,s,t,early,ran => by
    rw [runAll,List.foldlM_cons] at ran
    obtain ⟨mid,first,later⟩ := Option.bind_eq_some_iff.mp ran
    have adds := statement_adds early first
    have rest := runAll_runs sts (adds.early.trans early) later
    rw [adds.mode] at rest
    refine List.forall_mem_cons.mpr ⟨?_,rest⟩
    unfold Statement.run at first
    cases found : configFindGrammarForKeyword s.mode st.kw with
    | none => rw [found] at first; cases first
    | some pair =>
      simp only [found,Option.ite_none_left_eq_some] at first
      exact ⟨pair.1,pair.2,s,mid,found,first.2⟩

theorem canvas_table (mode : Mode) : ∀ gr ∈ grammar mode,
    (gr.fn = some .canvasDirectory → mode = .canvas ∧ gr.kw = "canvas-dir".toList) ∧
    (mode = .canvas → gr.fn ∉ [some .glob,some .regress,some .regressEnv]) ∧
    (mode = .canvas → gr.kw = "canvas-dir".toList → gr.fn = some .canvasDirectory) := by
  cases mode <;> decide

theorem suites_bound {path name : Str} (other : suiteNamed name = false) (options : List SuiteOption) :
    (options.filterMap (bound path)).count name = 0 := by
  rw [List.count_eq_zero,List.mem_filterMap]
  rintro ⟨option,_,same⟩
  obtain ⟨a,_,rfl⟩ := Option.map_eq_some_iff.mp same
  exact regressname_ne other rfl

/-- A keyword has no more variables of its own than it is given, but `robsddir` in a canvas. -/
theorem bound_le_given {mode : Mode} {kw : Str} (notSuite : suiteNamed kw = false)
    (notAlias : ¬ (mode = .canvas ∧ kw = "robsddir".toList)) : ∀ sts : List Statement, (∀ st ∈ sts, Runs host mode st) →
      (sts.flatMap (statementBound host mode)).count kw ≤ given kw sts
  | [],_ => Nat.le_refl 0
  | st :: sts,runs => by
    obtain ⟨here,later⟩ := List.forall_mem_cons.mp runs
    have rest := bound_le_given notSuite notAlias sts later
    have one : (statementBound host mode st).count kw ≤ if st.kw = kw then 1 else 0 := by
      obtain ⟨gr,fn,s,t,found,ran⟩ := here
      obtain ⟨member,parses,named⟩ := keyword_mem found
      simp only [statementBound,found,Option.elim_some]
      by_cases regress : fn = .regress
      · subst regress
        cases arg : st.arg with
        | suite path options =>
          rw [argumentBound,suites_bound notSuite]
          exact Nat.zero_le _
        | _ => rw [arg] at ran; cases ran
      · by_cases canvas : fn = .canvasDirectory
        · subst canvas
          obtain ⟨canvas,own⟩ := (canvas_table mode gr member).1 parses
          have notRobsddir : "robsddir".toList ≠ kw := fun same => notAlias ⟨canvas,same.symm⟩
          rw [argumentBound,count_pair,if_neg notRobsddir,← own,named]
          exact Nat.le_refl _
        · exact argumentBound_own regress canvas
    rw [List.flatMap_cons,List.count_append,given,List.countP_cons]
    unfold given at rest
    simp only [decide_eq_true_eq]
    omega

/-- In a canvas, the directory comes under two names. -/
theorem bound_robsddir : ∀ sts : List Statement, (∀ st ∈ sts, Runs host .canvas st) →
    (sts.flatMap (statementBound host .canvas)).count "robsddir".toList =
      given "robsddir".toList sts+given "canvas-dir".toList sts
  | [],_ => rfl
  | st :: sts,runs => by
    obtain ⟨here,later⟩ := List.forall_mem_cons.mp runs
    have rest := bound_robsddir sts later
    have one : (statementBound host .canvas st).count "robsddir".toList =
        (if st.kw = "robsddir".toList then 1 else 0)+(if st.kw = "canvas-dir".toList then 1 else 0) := by
      obtain ⟨gr,fn,s,t,found,ran⟩ := here
      obtain ⟨member,parses,named⟩ := keyword_mem found
      obtain ⟨named',plain,canvas⟩ := canvas_table .canvas gr member
      rw [named] at named' canvas
      rw [parses] at named' plain canvas
      simp only [statementBound,found,Option.elim_some]
      by_cases directory : fn = .canvasDirectory
      · subst directory
        rw [argumentBound,count_pair,(named' rfl).2,if_neg (show "canvas-dir".toList ≠ "robsddir".toList by decide),
          if_pos rfl,if_pos rfl]
      · rw [if_neg (fun same : st.kw = "canvas-dir".toList => directory (Option.some.inj (canvas rfl same)))]
        have own : argumentBound host st.kw fn st.arg = [st.kw] := by
          have other := plain rfl
          cases fn with
          | glob | regress | regressEnv => exact absurd (by simp) other
          | canvasDirectory => exact absurd rfl directory
          | _ => rfl
        rw [own,List.count_singleton]
        simp only [beq_iff_eq,Nat.add_zero]
    rw [List.flatMap_cons,List.count_append,given,given,List.countP_cons,List.countP_cons]
    unfold given at rest
    simp only [decide_eq_true_eq]
    omega

/-! ## The suite that is named like the patterns -/

/-- The options of the suite `*`. -/
def starOptions (sts : List Statement) : List SuiteOption :=
  sts.flatMap fun st =>
    match st.arg with
    | .suite path options => if path = ['*'] then options else []
    | _ => []

theorem suffix_dashless {option : SuiteOption} {a : Str} (named : suffix option = some a) : '-' ∉ a := by
  cases option <;> cases named <;> decide

theorem suffix_targets (option : SuiteOption) : suffix option ≠ some "targets".toList := by
  cases option with
  | obj | packages | targets => exact fun impossible => by cases impossible
  | _ => exact fun same => absurd (Option.some.inj same) (by decide)

theorem suite_count {a : Str} (dashless : '-' ∉ a) (path : Str) (options : List SuiteOption) :
    (options.filterMap (bound path)).count (regressname ['*'] a) =
      if path = ['*'] then options.countP (suffix · = some a) else 0 := by
  have same : ∀ option, bound path option = some (regressname ['*'] a) ↔ path = ['*'] ∧ suffix option = some a := by
    intro option
    unfold bound
    cases named : suffix option with
    | none => simp
    | some b => simp [regressname_inj (suffix_dashless named) dashless]
  induction options with
  | nil => simp
  | cons option options ih =>
    rw [List.filterMap_cons,List.countP_cons]
    cases named : bound path option with
    | none =>
      have other := mt (same option).mpr (by simp [named])
      dsimp only
      rw [ih]
      by_cases star : path = ['*'] <;> simp_all
    | some name =>
      have here := same option
      rw [named,Option.some.injEq] at here
      dsimp only
      rw [List.count_cons,ih]
      by_cases star : path = ['*'] <;> simp_all

theorem notSuite_table (mode : Mode) : ∀ gr ∈ grammar mode, gr.fn.isSome → suiteNamed gr.kw = false := by
  cases mode <;> decide +kernel

theorem star_count {a : Str} (dashless : '-' ∉ a) : ∀ sts : List Statement, (∀ st ∈ sts, Runs host .robsdRegress st) →
    (sts.flatMap (statementBound host .robsdRegress)).count (regressname ['*'] a) =
      (starOptions sts).countP (suffix · = some a)
  | [],_ => rfl
  | st :: sts,runs => by
    obtain ⟨here,later⟩ := List.forall_mem_cons.mp runs
    have one : (statementBound host .robsdRegress st).count (regressname ['*'] a) =
        (starOptions [st]).countP (suffix · = some a) := by
      obtain ⟨gr,fn,s,t,found,ran⟩ := here
      obtain ⟨member,parses,named⟩ := keyword_mem found
      simp only [statementBound,found,Option.elim_some,starOptions,List.flatMap_singleton]
      by_cases regress : fn = .regress
      · subst regress
        cases arg : st.arg with
        | suite path options =>
          rw [argumentBound,suite_count dashless]
          dsimp only
          split <;> rfl
        | _ => rw [arg] at ran; cases ran
      · have notCanvas : fn ≠ .canvasDirectory := by
          rintro rfl
          cases ((canvas_table .robsdRegress gr member).1 parses).1
        have notSuite : suiteNamed st.kw = false := named ▸ notSuite_table _ gr member (by rw [parses]; rfl)
        have none := (@argumentBound_own host st.kw (regressname ['*'] a) fn st.arg) regress notCanvas
        rw [if_neg (fun same => regressname_ne notSuite same.symm)] at none
        cases arg : st.arg with
        | suite path options =>
          rw [arg] at ran
          cases fn <;> first | exact absurd rfl regress | cases ran
        | _ => rw [arg] at none; exact Nat.le_zero.mp none
    have rest := star_count dashless sts later
    have split : starOptions (st :: sts) = starOptions [st] ++ starOptions sts := by simp [starOptions]
    rw [List.flatMap_cons,List.count_append,split,List.countP_append,one,rest]

/-! ## Accepted files -/

/-- The statements of a file give no variable twice: a canvas leaves `robsddir` to
    `canvas-dir`, no keyword is repeated after a pattern without a match, and a suite
    named like the patterns of the grammar has no option twice. -/
structure Once (host : Host) (mode : Mode) (sts : List Statement) : Prop where
  canvas : mode = .canvas → given "robsddir".toList sts = 0
  matched : sts.Pairwise fun st st' => st.kw = st'.kw → unmatched host mode st = false
  star : mode = .robsdRegress → ∀ a ∈ ["env".toList,"parallel".toList,"timeout".toList],
    (starOptions sts).countP (suffix · = some a) ≤ 1

theorem none_table (mode : Mode) : ∀ gr ∈ grammar mode, gr.fn = none →
    configFindGrammarForKeyword mode gr.kw = none ∧ ¬ (mode = .canvas ∧ gr.kw = "robsddir".toList) ∧
    (suiteNamed gr.kw = true → mode = .robsdRegress ∧
      gr.kw ∈ ["env".toList,"targets".toList,"parallel".toList,"timeout".toList].map
      (regressname ['*'])) := by
  cases mode <;> decide +kernel

theorem star_table : ∀ a ∈ ["env".toList,"parallel".toList,"timeout".toList],
    '-' ∉ a ∧ a ≠ "targets".toList ∧ defaulted .robsdRegress (regressname ['*'] a) = false ∧
    ∃ gr ∈ grammar .robsdRegress, gr.kw = regressname ['*'] a ∧ gr.flags.rep = false := by
  decide +kernel

theorem found_table (mode : Mode) : ∀ gr ∈ grammar mode, gr.fn.isSome →
    configFindGrammarForKeyword mode gr.kw = gr.fn.map (gr,·) := by
  cases mode <;> decide +kernel

theorem unmatched_single {mode : Mode} {st : Statement} (none : unmatched host mode st = true) :
    ∃ gr fn, Single mode st.kw gr fn := by
  unfold unmatched at none
  split at none
  · next gr _ found _ =>
    obtain ⟨member,parses,_⟩ := keyword_mem found
    refine ⟨gr,_,single_of_found found ?_⟩
    by_contra rep
    have shared := rep_table mode gr member (by simpa using rep)
    rw [parses] at shared
    simp at shared
  · cases none

section
variable {mode : Mode} {sts : List Statement} {final : Config}

/-- What each kind of keyword of an accepted file comes to. -/
structure Tally (host : Host) (mode : Mode) (sts : List Statement) (final : Config) : Prop where
  runs : ∀ st ∈ sts, Runs host mode st
  exact : ∀ name, defaulted mode name = false → ¬ Shared name →
    entries name final = (sts.flatMap (statementBound host mode)).count name
  once : ∀ name, name ∉ sts.flatMap (statementBound host mode) → entries name final ≤ 1
  repeated : sts.Pairwise fun st st' => st.kw = st'.kw → (∃ gr fn, Single mode st.kw gr fn) →
    unmatched host mode st = true

theorem tally (ran : runAll host sts (configAlloc mode) = some final) : Tally host mode sts final := by
  have adds := runAll_adds sts rfl ran
  refine ⟨runAll_runs sts rfl ran,?_,?_,repeated_unmatched sts rfl ran⟩
  · intro name plain own
    rw [adds.exact name plain (statements_shared own)]
    exact Nat.zero_add _
  · intro name absent
    exact adds.once name absent (Nat.zero_le 1)

/-- A keyword without a function is never given. -/
theorem Tally.given_none (tally : Tally host mode sts final) {kw : Str}
    (unknown : configFindGrammarForKeyword mode kw = none) :
    given kw sts = 0 := by
  apply List.countP_eq_zero.mpr
  intro st member same
  obtain ⟨gr,fn,_,_,found,_⟩ := tally.runs st member
  rw [of_decide_eq_true same,unknown] at found
  cases found

theorem Tally.robsddir (tally : Tally host .canvas sts final) :
    entries "robsddir".toList final = given "robsddir".toList sts+given "canvas-dir".toList sts := by
  obtain ⟨gr,fn,found,rep⟩ : ∃ gr fn, configFindGrammarForKeyword .canvas "robsddir".toList = some (gr,fn) ∧
    gr.flags.rep = false :=
    ⟨_,_,rfl,rfl⟩
  have single := single_of_found found rep
  rw [tally.exact _ single.plain single.own,bound_robsddir sts tally.runs]

theorem Tally.star (tally : Tally host .robsdRegress sts final) {a : Str}
    (known : a ∈ ["env".toList,"parallel".toList,"timeout".toList]) :
    entries (regressname ['*'] a) final = (starOptions sts).countP (suffix · = some a) := by
  obtain ⟨dashless,notTargets,plain,_⟩ := star_table a known
  have own : ¬ Shared (regressname ['*'] a) := by
    rintro (fixed | ⟨path,same⟩)
    · have shape : ∀ name ∈ ["regress".toList,"regress-obj".toList,"regress-packages".toList,
        "regress-env".toList,"step".toList],
          suiteNamed name = false := by decide
      exact regressname_ne (shape _ fixed) rfl
    · exact notTargets ((regressname_inj dashless (by decide)).mp same).2
  rw [tally.exact _ plain own,star_count dashless sts tally.runs]

/-- A file keeps its promise where a variable is not given twice by one of the three ways. -/
theorem Tally.once_iff (tally : Tally host mode sts final)
    (directory : mode = .canvas → 0 < given "canvas-dir".toList sts) :
    (∀ gr ∈ grammar mode, gr.flags.rep = false → entries gr.kw final ≤ 1 ∧ given gr.kw sts ≤ 1) ↔
      Once host mode sts := by
  constructor
  · intro promise
    refine ⟨?_,?_,?_⟩
    · intro canvas
      subst canvas
      obtain ⟨gr,member,kw,rep⟩ : ∃ gr ∈ grammar .canvas, gr.kw = "robsddir".toList ∧ gr.flags.rep = false := by decide
      have few := (promise gr member rep).1
      rw [kw,tally.robsddir] at few
      have := directory rfl
      omega
    · have few : ∀ kw, (∃ gr fn, Single mode kw gr fn) → given kw sts ≤ 1 := by
        rintro kw ⟨gr,fn,single⟩
        obtain ⟨member,_,rfl⟩ := keyword_mem single.found
        exact (promise gr member single.rep).2
      refine (given_le_one_iff.mp few).imp fun apart same => ?_
      by_contra none
      exact apart same (unmatched_single (by simpa using none))
    · intro regress a known
      subst regress
      obtain ⟨_,_,_,gr,member,kw,rep⟩ := star_table a known
      have few := (promise gr member rep).1
      rwa [kw,tally.star known] at few
  · intro once gr member rep
    have few : ∀ kw, (∃ gr fn, Single mode kw gr fn) → given kw sts ≤ 1 := by
      refine given_le_one_iff.mpr (List.pairwise_and_iff.mpr ⟨tally.repeated,once.matched⟩ |>.imp ?_)
      rintro st st' ⟨repeated,matched⟩ same single
      rw [repeated same single] at matched
      cases matched same
    cases parses : gr.fn with
    | some fn =>
      have found := found_table mode gr member (by rw [parses]; rfl)
      rw [parses,Option.map_some] at found
      have single := single_of_found found rep
      have one := few gr.kw ⟨gr,fn,single⟩
      refine ⟨?_,one⟩
      by_cases alias' : mode = .canvas ∧ gr.kw = "robsddir".toList
      · obtain ⟨rfl,kw⟩ := alias'
        have other : given "canvas-dir".toList sts ≤ 1 := by
          obtain ⟨gr,fn,found,rep⟩ : ∃ gr fn, configFindGrammarForKeyword .canvas "canvas-dir".toList = some (gr,fn) ∧
              gr.flags.rep = false := ⟨_,_,rfl,rfl⟩
          exact few _ ⟨gr,fn,single_of_found found rep⟩
        rw [kw,tally.robsddir,once.canvas rfl]
        omega
      · rw [tally.exact _ single.plain single.own]
        exact (bound_le_given single.notSuite alias' sts tally.runs).trans one
    | none =>
      obtain ⟨unknown,notAlias,pattern⟩ := none_table mode gr member parses
      have zero := tally.given_none unknown
      refine ⟨?_,zero.le.trans (Nat.zero_le 1)⟩
      cases named : suiteNamed gr.kw with
      | false =>
        refine tally.once _ (List.count_eq_zero.mp (Nat.le_zero.mp ?_))
        exact (bound_le_given named notAlias sts tally.runs).trans zero.le
      | true =>
        obtain ⟨rfl,known⟩ := pattern named
        obtain ⟨a,among,kw⟩ := List.mem_map.mp known
        rw [← kw]
        by_cases targets : a = "targets".toList
        · refine tally.once _ (List.count_eq_zero.mp ?_)
          rw [targets,star_count (by decide) sts tally.runs,List.countP_eq_zero]
          intro option _ same
          exact suffix_targets option (of_decide_eq_true same)
        · have among : a ∈ ["env".toList,"parallel".toList,"timeout".toList] := by
            simp only [List.mem_cons,List.not_mem_nil,or_false] at among ⊢
            rcases among with rfl | rfl | rfl | rfl
            · exact .inl rfl
            · exact absurd rfl targets
            · exact .inr (.inl rfl)
            · exact .inr (.inr rfl)
          rw [tally.star among]
          exact once.star rfl a among

end

theorem afterParse_vars (cf : Config) : (afterParse cf).vars = cf.vars := by
  unfold afterParse
  split <;> rfl

/-- An accepted file gives no variable twice, and no keyword that must not be
    repeated, exactly where its statements avoid the three ways to do so. -/
theorem redefinition_iff {mode : Mode} {text : Str} {cf : Config}
    (accepted : configParse host text (configAlloc mode) = .ok cf) :
    ∃ sts, Written mode text sts ∧
      ((∀ gr ∈ grammar mode, gr.flags.rep = false → entries gr.kw cf ≤ 1 ∧ given gr.kw sts ≤ 1) ↔
        Once host mode sts) := by
  obtain ⟨sts,final,written,ran,complete,rfl⟩ := configParse_runs accepted
  have counts := tally ran
  have same : final.mode = mode := (runAll_adds sts rfl ran).mode
  refine ⟨sts,written,?_⟩
  simp only [entries,afterParse_vars]
  apply counts.once_iff
  intro canvas
  subst canvas
  obtain ⟨gr,fn,found,rep⟩ : ∃ gr fn, configFindGrammarForKeyword .canvas "canvas-dir".toList = some (gr,fn) ∧
      gr.flags.rep = false := ⟨_,_,rfl,rfl⟩
  have single := single_of_found found rep
  have there : 0 < entries "canvas-dir".toList final := by
    apply Nat.pos_of_ne_zero
    intro none
    have unset := times_eq_zero.mp none
    have required : ∃ gr ∈ grammar .canvas, gr.flags.req = true ∧ gr.kw = "canvas-dir".toList := by decide
    obtain ⟨gr,member,req,kw⟩ := required
    have lacking : gr.kw ∈ missing final := by
      refine List.mem_map.mpr ⟨gr,List.mem_filter.mpr ⟨same ▸ member,?_⟩,rfl⟩
      rw [req,kw,configPresent,Config.value,unset]
      rfl
    rw [complete] at lacking
    cases lacking
  rw [counts.exact _ single.plain single.own] at there
  exact there.trans_le (bound_le_given single.notSuite (by decide) sts counts.runs)

/-- A canvas with one step, with some text in front. -/
def canvasText (front : String) : Str :=
  (front ++ "canvas-name \"c\"\ncanvas-dir \"/home/canvas\"\nstep \"a\" command \x7b \"true\" \x7d\n").toList

theorem redefinition_iff_canvas : ∃ cf, configParse sampleHost (canvasText "") (configAlloc .canvas) = .ok cf ∧
    ∃ sts, Written .canvas (canvasText "") sts ∧
      ((∀ gr ∈ grammar .canvas, gr.flags.rep = false → entries gr.kw cf ≤ 1 ∧ given gr.kw sts ≤ 1) ↔
        Once sampleHost .canvas sts) := by
  have run : (configParse sampleHost (canvasText "") (configAlloc .canvas)).isOk = true := by decide +kernel
  cases parsed : configParse sampleHost (canvasText "") (configAlloc .canvas) with
  | error log => rw [parsed] at run; cases run
  | ok cf => exact ⟨cf,rfl,redefinition_iff parsed⟩

/-- The directory that is given first hides that of the canvas. -/
theorem redefinition_robsddir : ¬ ∀ (host : Host) (mode : Mode) (text : Str) (cf : Config),
    configParse host text (configAlloc mode) = .ok cf → ∃ sts, Written mode text sts ∧
      ∀ gr ∈ grammar mode, gr.flags.rep = false → entries gr.kw cf ≤ 1 ∧ given gr.kw sts ≤ 1 := by
  intro all
  have run : ((configParse sampleHost (canvasText "robsddir \"/home/robsd\"\n") (configAlloc .canvas)).toOption.map
      (entries "robsddir".toList)) = some 2 := by decide +kernel
  cases parsed : configParse sampleHost (canvasText "robsddir \"/home/robsd\"\n") (configAlloc .canvas) with
  | error log => rw [parsed] at run; cases run
  | ok cf =>
    rw [parsed] at run
    obtain ⟨sts,_,once⟩ := all _ _ _ cf parsed
    obtain ⟨gr,member,kw,rep⟩ : ∃ gr ∈ grammar .canvas, gr.kw = "robsddir".toList ∧ gr.flags.rep = false := by decide
    have few := (once gr member rep).1
    rw [kw,Option.some.inj run] at few
    omega

end Robsd.Redefinition
