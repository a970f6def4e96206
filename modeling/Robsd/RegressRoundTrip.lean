import Robsd.RegressParse

/-!
Configurations of robsd-regress that are written out are accepted, and every
variable is found with the value the statements give it: no suite, suffix or
keyword gets in the way of another one.
-/
namespace Robsd.RegressRoundTrip
open Robsd.Strings
open Robsd.Lexer
open Robsd.Modes
open Robsd.Bindings
open Robsd.ConfigLexer (configReader)
open Robsd.ConfigLayout
open Robsd.Configuration
open Robsd.ConfigParse
open Robsd.ConfigTokens
open Robsd.RegressConfig
open Robsd.RegressParse
variable {host : Host}

/-! ## Changes about one variable -/

/-- The variables after the statements. -/
def variablesOf (host : Host) (sts : List Statement) : List (Str × Value) :=
  applyAll (sts.flatMap (Statement.changes host)) []

/-- Changes that are picked by what they are made from. -/
theorem filter_map_pick {α β γ : Type} {f : α → β} {q : β → Bool} {g : α → Option γ} {c : γ → β}
    (picked : ∀ a x, g a = some x → f a = c x ∧ q (f a) = true) (passed : ∀ a, g a = none → q (f a) = false)
    (l : List α) :
    (l.map f).filter q = (l.filterMap g).map c := by
  induction l with
  | nil => rfl
  | cons a l ih =>
    rw [List.map_cons,List.filter_cons,List.filterMap_cons,ih]
    cases pick : g a with
    | none => rw [passed a pick,if_neg (by decide)]
    | some x =>
      obtain ⟨same,yes⟩ := picked a x pick
      rw [yes,if_pos rfl,same]
      rfl

/-- The suffix of the variable an option is about, where it is one of the suite. -/
def optionSuffix : SuiteOption → Option Str
  | .noParallel => some "parallel".toList
  | .quiet => some "quiet".toList
  | .root => some "root".toList
  | .obj _ => none
  | .packages _ => none
  | .targets _ => some "targets".toList
  | .timeout _ _ => some "timeout".toList

theorem option_key (name suite : Str) (o : SuiteOption) {suffix : Str} (noDash : '-' ∉ suffix) :
    (o.change name).key = regressname suite suffix ↔ name = suite ∧ optionSuffix o = some suffix := by
  have dashless : ∀ a, optionSuffix o = some a → '-' ∉ a := by
    cases o <;> rintro _ ⟨⟩ <;> decide
  cases o with
  | obj xs =>
    have fixed : suiteNamed "regress-obj".toList = false := by decide
    exact ⟨fun same => absurd same.symm (regressname_ne fixed),fun ⟨_,impossible⟩ => nomatch impossible⟩
  | packages xs =>
    have fixed : suiteNamed "regress-packages".toList = false := by decide
    exact ⟨fun same => absurd same.symm (regressname_ne fixed),fun ⟨_,impossible⟩ => nomatch impossible⟩
  | noParallel | quiet | root | targets | timeout =>
    rw [optionSuffix,Option.some.injEq]
    exact regressname_inj (dashless _ rfl) noDash

/-- The changes about a variable that no statement of its own gives come from the options. -/
theorem changes_options {key : Str} (notRegress : "regress".toList ≠ key) {sts : List Statement}
    (noGlobal : ∀ kw arg, Statement.global kw arg ∈ sts → kw ≠ key) :
    (sts.flatMap (Statement.changes host)).filter (fun c => c.key = key) =
      ((options sts).map fun p => p.2.change p.1).filter fun c => c.key = key := by
  induction sts with
  | nil => rfl
  | cons st sts ih =>
    have tail := ih fun kw arg member => noGlobal kw arg (by simp [member])
    cases st with
    | suite name os =>
      have last : decide ((extend "regress".toList [name]).key = key) = false := decide_eq_false notRegress
      have own : options (.suite name os :: sts) = os.map (fun o => (name,o)) ++ options sts := rfl
      rw [List.flatMap_cons,List.filter_append,tail,own,List.map_append,List.filter_append,Statement.changes,
        List.filter_append,List.filter_cons,last]
      simp [Function.comp_def]
    | global kw arg =>
      have others : ((Statement.global kw arg).changes host).filter (fun c => c.key = key) = [] := by
        apply List.filter_eq_nil_iff.mpr
        intro c member
        rw [global_key member]
        simpa using noGlobal kw arg (by simp)
      rw [List.flatMap_cons,List.filter_append,others,List.nil_append,tail]
      rfl

/-- Lists that extend a variable one after the other. -/
theorem foldl_extend (key : Str) (xss : List (List Str)) (ys : List Str) :
    (xss.map (extend key)).foldl (fun old c => c.act key old) (some (.list ys)) = some (.list (ys ++ xss.flatten)) := by
  induction xss generalizing ys with
  | nil => simp
  | cons xs xss ih =>
    have step : (extend key xs).act key (some (.list ys)) = some (.list (ys ++ xs)) := by
      simp [extend,Change.act,Value.concat]
    rw [List.map_cons,List.foldl_cons,step,ih]
    simp

theorem foldl_extend_none (key : Str) (xss : List (List Str)) :
    (xss.map (extend key)).foldl (fun old c => c.act key old) none =
      if xss = [] then none else some (.list xss.flatten) := by
  cases xss with
  | nil => rfl
  | cons xs xss =>
    have step : (extend key xs).act key none = some (.list xs) := by
      simp [extend,Change.act,Value.concat]
    rw [List.map_cons,List.foldl_cons,step,foldl_extend]
    simp

/-! ## Values -/

theorem value_filter (key : Str) (sts : List Statement) : first key (variablesOf host sts) =
    ((sts.flatMap (Statement.changes host)).filter fun c => c.key = key).foldl (fun old c => c.act key old) none := by
  rw [variablesOf,first_applyAll,foldl_act_filter]
  rfl

/-- No statement gives a variable of a suite, or one that only options give. -/
theorem noGlobal_of {sts : List Statement} (suits : ∀ st ∈ sts, st.Suits host) {key : Str}
    (other : suiteNamed key = true ∨ key ∈ ["regress".toList,"regress-obj".toList,"regress-packages".toList]) :
    ∀ kw arg, Statement.global kw arg ∈ sts → kw ≠ key := by
  rintro kw arg member rfl
  obtain ⟨gr,fn,known,_⟩ := statement_keyword (suits _ member)
  rcases other with named | fixed
  · rw [known.notSuite] at named
    cases named
  · exact known.other fixed

theorem regress_ne_suite (suite suffix : Str) : "regress".toList ≠ regressname suite suffix :=
  (regressname_ne (by decide)).symm

/-- The change an option of a suite makes. -/
def changeOf (p : Str × SuiteOption) : Change Str Value := p.2.change p.1

/-- A variable that options grow. -/
theorem value_lists {sts : List Statement} (suits : ∀ st ∈ sts, st.Suits host) {key : Str}
    (other : suiteNamed key = true ∨ key ∈ ["regress-obj".toList,"regress-packages".toList])
    (notRegress : "regress".toList ≠ key) {g : Str × SuiteOption → Option (List Str)}
    (picked : ∀ p xs, g p = some xs → changeOf p = extend key xs) (passed : ∀ p, g p = none → (changeOf p).key ≠ key) :
    first key (variablesOf host sts) =
      if (options sts).filterMap g = [] then none else some (.list ((options sts).filterMap g).flatten) := by
  have free := noGlobal_of suits (other.imp_right (List.mem_cons_of_mem _))
  have picks := filter_map_pick (f := changeOf) (q := fun c => c.key = key) (g := g) (c := extend key)
    (fun p xs pick => ⟨picked p xs pick,by rw [picked p xs pick]; exact decide_eq_true rfl⟩)
    (fun p pass => decide_eq_false (passed p pass)) (options sts)
  rw [value_filter,changes_options notRegress free,← foldl_extend_none,← picks]
  rfl

/-- A variable that options bind. -/
theorem value_binds {sts : List Statement} (suits : ∀ st ∈ sts, st.Suits host) {suite suffix : Str} {γ : Type}
    {g : Str × SuiteOption → Option γ} {value : γ → Value}
    (picked : ∀ p x, g p = some x → changeOf p = .bind (regressname suite suffix) (value x))
    (passed : ∀ p, g p = none → (changeOf p).key ≠ regressname suite suffix) :
    first (regressname suite suffix) (variablesOf host sts) = ((options sts).filterMap g).head?.map value := by
  have free := noGlobal_of suits (.inl (regressname_suiteNamed suite suffix))
  have picks := filter_map_pick (f := changeOf) (q := fun c => c.key = regressname suite suffix) (g := g)
    (c := fun x => .bind (regressname suite suffix) (value x))
    (fun p x pick => ⟨picked p x pick,by rw [picked p x pick]; exact decide_eq_true rfl⟩)
    (fun p pass => decide_eq_false (passed p pass)) (options sts)
  have binds := foldl_bind (regressname suite suffix) (((options sts).filterMap g).map value)
  rw [List.map_map,List.head?_map] at binds
  rw [value_filter,changes_options (regress_ne_suite suite suffix) free,← binds]
  exact congrArg (List.foldl (fun old c => c.act (regressname suite suffix) old) none) picks

/-- A flag of a suite is set by the option that stands for it. -/
theorem value_flag {sts : List Statement} (suits : ∀ st ∈ sts, st.Suits host) (suite : Str) {suffix : Str} {n : Int}
    {flag : SuiteOption} (noDash : '-' ∉ suffix) (own : ∀ o, optionSuffix o = some suffix → o = flag)
    (change : flag.change suite = .bind (regressname suite suffix) (.integer n)) :
    first (regressname suite suffix) (variablesOf host sts) =
      if (suite,flag) ∈ options sts then some (.integer n) else none := by
  have value := value_binds suits
    (g := fun p => if p = (suite,flag) then some () else none)
    (fun p x pick => by
      split at pick
      · next same => rw [same]; exact change
      · cases pick)
    (fun p pass same => by
      obtain ⟨name,o⟩ := p
      obtain ⟨rfl,named⟩ := (option_key name suite o noDash).mp same
      rw [own o named,if_pos rfl] at pass
      cases pass)
  rw [value]
  by_cases member : (suite,flag) ∈ options sts
  · rw [if_pos member]
    cases picked : (options sts).filterMap fun p => if p = (suite,flag) then some () else none with
    | nil =>
      have absent := List.filterMap_eq_nil_iff.mp picked (suite,flag) member
      simp at absent
    | cons u us => rfl
  · have absent : (options sts).filterMap (fun p => if p = (suite,flag) then some () else none) = [] := by
      refine List.filterMap_eq_nil_iff.mpr fun p there => if_neg ?_
      rintro rfl
      exact member there
    rw [if_neg member,absent]
    rfl

theorem suffix_targets {o : SuiteOption} (named : optionSuffix o = some "targets".toList) : ∃ xs, o = .targets xs := by
  cases o with
  | targets xs => exact ⟨xs,rfl⟩
  | obj xs => cases named
  | packages xs => cases named
  | noParallel | quiet | root | timeout => exact absurd (Option.some.inj named) (by decide)

theorem suffix_timeout {o : SuiteOption} (named : optionSuffix o = some "timeout".toList) :
    ∃ n u, o = .timeout n u := by
  cases o with
  | timeout n u => exact ⟨n,u,rfl⟩
  | obj xs => cases named
  | packages xs => cases named
  | noParallel | quiet | root | targets => exact absurd (Option.some.inj named) (by decide)

theorem value_targets {sts : List Statement} (suits : ∀ st ∈ sts, st.Suits host) (suite : Str) :
    first (regressname suite "targets".toList) (variablesOf host sts) =
      if targets suite sts = [] then none else some (.list (targets suite sts).flatten) := by
  refine value_lists suits (.inl (regressname_suiteNamed _ _)) (regress_ne_suite _ _) ?_ ?_
  · rintro ⟨name,o⟩ xs pick
    cases o <;> try cases pick
    next ys =>
    dsimp only at pick
    split at pick
    · next same =>
      cases pick
      rw [same]
      rfl
    · cases pick
  · rintro ⟨name,o⟩ pass same
    obtain ⟨rfl,named⟩ := (option_key name suite o (by decide)).mp same
    obtain ⟨xs,rfl⟩ := suffix_targets named
    simp at pass

theorem value_timeout {sts : List Statement} (suits : ∀ st ∈ sts, st.Suits host) (suite : Str) :
    first (regressname suite "timeout".toList) (variablesOf host sts) =
      (timeouts suite sts).head?.map fun n => .integer (n : Nat) := by
  refine value_binds suits ?_ ?_
  · rintro ⟨name,o⟩ n pick
    cases o <;> try cases pick
    next n u =>
    dsimp only at pick
    split at pick
    · next same =>
      cases pick
      rw [same]
      rfl
    · cases pick
  · rintro ⟨name,o⟩ pass same
    obtain ⟨rfl,named⟩ := (option_key name suite o (by decide)).mp same
    obtain ⟨n,u,rfl⟩ := suffix_timeout named
    simp at pass

theorem value_obj {sts : List Statement} (suits : ∀ st ∈ sts, st.Suits host) :
    first "regress-obj".toList (variablesOf host sts) = if objs sts = [] then none
      else some (.list (objs sts).flatten) := by
  refine value_lists suits (.inr (by decide)) (by decide) ?_ ?_
  · rintro ⟨name,o⟩ xs pick
    cases o <;> cases pick
    rfl
  · rintro ⟨name,o⟩ pass
    cases o with
    | obj xs => cases pass
    | packages xs => exact (by decide : "regress-packages".toList ≠ "regress-obj".toList)
    | noParallel | quiet | root | targets | timeout => exact regressname_ne (by decide)

theorem value_packages {sts : List Statement} (suits : ∀ st ∈ sts, st.Suits host) :
    first "regress-packages".toList (variablesOf host sts) =
      if packages sts = [] then none else some (.list (packages sts).flatten) := by
  refine value_lists suits (.inr (by decide)) (by decide) ?_ ?_
  · rintro ⟨name,o⟩ xs pick
    cases o <;> cases pick
    rfl
  · rintro ⟨name,o⟩ pass
    cases o with
    | packages xs => cases pass
    | obj xs => exact (by decide : "regress-obj".toList ≠ "regress-packages".toList)
    | noParallel | quiet | root | targets | timeout => exact regressname_ne (by decide)

/-- The list of suites. -/
theorem value_regress {sts : List Statement} (suits : ∀ st ∈ sts, st.Suits host) :
    first "regress".toList (variablesOf host sts) = if suites sts = [] then none else some (.list (suites sts)) := by
  have changes : (sts.flatMap (Statement.changes host)).filter (fun c => c.key = "regress".toList) =
      ((suites sts).map fun name => [name]).map (extend "regress".toList) := by
    induction sts with
    | nil => rfl
    | cons st sts ih =>
      have tail := ih fun st member => suits st (by simp [member])
      rw [List.flatMap_cons,List.filter_append,tail]
      cases st with
      | suite name os =>
        have options : (os.map (SuiteOption.change name)).filter (fun c => c.key = "regress".toList) = [] := by
          apply List.filter_eq_nil_iff.mpr
          intro c member
          obtain ⟨o,_,rfl⟩ := List.mem_map.mp member
          have other : (o.change name).key ≠ "regress".toList := by
            cases o with
            | obj xs => exact (by decide : "regress-obj".toList ≠ "regress".toList)
            | packages xs => exact (by decide : "regress-packages".toList ≠ "regress".toList)
            | noParallel | quiet | root | targets | timeout => exact regressname_ne (by decide)
          intro same
          exact other (of_decide_eq_true same)
        rw [Statement.changes,List.filter_append,options]
        rfl
      | global kw arg =>
        have others : ((Statement.global kw arg).changes host).filter (fun c => c.key = "regress".toList) = [] := by
          apply List.filter_eq_nil_iff.mpr
          intro c member
          have other := noGlobal_of suits (.inr (by decide : "regress".toList ∈ _)) kw arg (by simp)
          rw [global_key member]
          intro same
          exact other (of_decide_eq_true same)
        rw [others]
        rfl
  rw [value_filter,changes,foldl_extend_none]
  have flat : ((suites sts).map fun name => [name]).flatten = suites sts := by
    rw [← List.flatMap_def,List.flatMap_singleton']
  simp only [flat,List.map_eq_nil_iff]

theorem given_other {kw kw' : Str} (different : kw' ≠ kw) (arg : Argument) (sts : List Statement) :
    given kw (.global kw' arg :: sts) = given kw sts := by
  simp [given,different]

/-- The variable of a keyword that may be given once. -/
theorem value_global {sts : List Statement} (suits : ∀ st ∈ sts, st.Suits host) (once : (keywords sts).Nodup) {kw : Str}
    {gr : Grammar} {fn : Parser} (known : Keyword kw gr fn) (other : fn ≠ .regressEnv) :
    ∀ vars, first kw vars = none →
      first kw (applyAll (sts.flatMap (Statement.changes host)) vars) =
        (given kw sts).bind (Argument.value host fn) := by
  induction sts with
  | nil => exact fun vars unset => unset
  | cons st sts ih =>
    intro vars unset
    rw [keywords_cons,List.nodup_append] at once
    obtain ⟨_,once,disjoint⟩ := once
    have later : ∀ st ∈ sts, st.Suits host := fun st member => suits st (by simp [member])
    rw [List.flatMap_cons,applyAll_append]
    by_cases own : ∃ arg, st = .global kw arg
    · obtain ⟨arg,rfl⟩ := own
      have notEnv := mt known.env.mpr other
      have rest : ∀ c ∈ sts.flatMap (Statement.changes host), c.key ≠ kw := by
        intro c member
        obtain ⟨st,there,member⟩ := List.mem_flatMap.mp member
        refine changes_other known ?_ c member
        rintro arg' rfl
        exact disjoint kw (by rw [keywords_global notEnv]; simp) kw (mem_keywords.mpr ⟨⟨arg',there⟩,notEnv⟩) rfl
      rw [first_applyAll_other rest,changes_global known.found other]
      have here : given kw (.global kw arg :: sts) = some arg := by simp [given]
      rw [here]
      change _ = arg.value host fn
      cases arg.value host fn with
      | none => exact unset
      | some val =>
        change first kw (Change.apply (.bind kw val) vars) = some val
        rw [first_apply,unset]
        simp [Change.act]
    · have others := (@changes_other host) known fun arg same => own ⟨arg,same⟩
      have past : given kw (st :: sts) = given kw sts := by
        cases st with
        | suite name os => rfl
        | global kw' arg =>
          have different : kw' ≠ kw := by
            rintro rfl
            exact own ⟨arg,rfl⟩
          exact given_other different arg sts
      rw [past]
      exact ih later once _ (by rw [first_applyAll_other others]; exact unset)

theorem given_mem {kw : Str} {arg : Argument} {sts : List Statement} (found : given kw sts = some arg) :
    Statement.global kw arg ∈ sts := by
  obtain ⟨st,member,same⟩ := List.exists_of_findSome?_eq_some found
  cases st with
  | suite name os => cases same
  | global kw' arg' =>
    dsimp only at same
    split at same
    · next key =>
      cases same
      rw [← key]
      exact member
    · cases same

theorem given_some {kw : Str} {sts : List Statement} (there : ∃ arg, Statement.global kw arg ∈ sts) :
    ∃ arg, given kw sts = some arg := by
  obtain ⟨arg,member⟩ := there
  apply Option.isSome_iff_exists.mp
  rw [given,List.findSome?_isSome_iff]
  exact ⟨_,member,by simp⟩

/-- A keyword that is not repeated has the argument of its only statement. -/
theorem given_once {kw : Str} {arg : Argument} {sts : List Statement} (once : (keywords sts).Nodup)
    (member : Statement.global kw arg ∈ sts) (other : kw ≠ "regress-env".toList) : given kw sts = some arg := by
  induction sts with
  | nil => cases member
  | cons st sts ih =>
    rw [keywords_cons,List.nodup_append] at once
    obtain ⟨_,once,disjoint⟩ := once
    rcases List.mem_cons.mp member with rfl | later
    · simp [given]
    · have tail := ih once later
      cases st with
      | suite name os => exact tail
      | global kw' arg' =>
        have different : kw' ≠ kw := by
          rintro rfl
          exact disjoint kw' (by rw [keywords_global other]; simp) kw' (mem_keywords.mpr ⟨⟨arg,later⟩,other⟩) rfl
        rw [given_other different arg' sts]
        exact tail

/-- The argument a statement gives to a keyword suits the function behind it. -/
theorem given_suits {sts : List Statement} (suits : ∀ st ∈ sts, st.Suits host) {kw : Str} {arg : Argument}
    {gr : Grammar} {fn : Parser} (found : given kw sts = some arg)
    (keyword : configFindGrammarForKeyword .robsdRegress kw = some (gr,fn)) :
    arg.Suits host fn := by
  obtain ⟨gr',fn',keyword',own⟩ := suits _ (given_mem found)
  rw [keyword] at keyword'
  cases keyword'
  exact own

/-- The keyword of a boolean and that of a timeout. -/
theorem given_parallel {sts : List Statement} (suits : ∀ st ∈ sts, st.Suits host) :
    ((given "parallel".toList sts).bind (Argument.value host .boolean)).or (some (.integer 1)) =
      some (.integer ((given "parallel".toList sts).elim 1 Argument.flag)) := by
  cases found : given "parallel".toList sts with
  | none => rfl
  | some arg =>
    have own := given_suits suits found rfl
    cases arg <;> first | exact absurd own id | rfl

theorem given_timeout {sts : List Statement} (suits : ∀ st ∈ sts, st.Suits host) :
    ((given "regress-timeout".toList sts).bind (Argument.value host .timeout)).or (some (.integer 0)) =
      some (.integer ((given "regress-timeout".toList sts).elim 0 Argument.seconds : Nat)) := by
  cases found : given "regress-timeout".toList sts with
  | none => rfl
  | some arg =>
    have own := given_suits suits found rfl
    cases arg <;> first | exact absurd own id | rfl

/-! ## Lookup -/

/-- The variables that are required. -/
theorem required_table : ∀ gr ∈ grammar .robsdRegress, gr.flags.req = true →
    gr.kw = "robsddir".toList ∨ gr.kw = "regress".toList := by decide

theorem keyword_robsddir : ∃ gr, configFindGrammarForKeyword .robsdRegress "robsddir".toList = some (gr,.directory) :=
  ⟨_,rfl⟩

theorem present_robsddir {sts : List Statement} (valid : Valid host sts) :
    (first "robsddir".toList (variablesOf host sts)).isSome = true := by
  obtain ⟨gr,found⟩ := keyword_robsddir
  obtain ⟨arg,given⟩ := given_some valid.robsddir
  have own := given_suits valid.suits given found
  have known := suits_keyword found own
  have value : first "robsddir".toList (variablesOf host sts) = _ :=
    value_global valid.suits valid.once known (by decide) [] rfl
  rw [value,given]
  cases arg <;> first | exact absurd own id | rfl

/-- A configuration that is written out is accepted, with the variables of its statements. -/
theorem configParse_render (little : host.bigEndian = false) {sts : List Statement} (valid : Valid host sts)
    (readable : ∀ st ∈ sts, st.Readable host) {blank : Str} {items : List (Lexeme × Str)} (layout : Layout blank items)
    (written : items.map Prod.fst = sts.flatMap Statement.lexemes) :
    ∃ cf, configParse host (render blank items) (configAlloc .robsdRegress) = .ok cf ∧ cf.mode = .robsdRegress ∧
      cf.vars = variablesOf host sts := by
  have plain : ∀ i ∈ items, i.1.Plain := by
    intro i member
    have inside : i.1 ∈ items.map Prod.fst := List.mem_map_of_mem member
    rw [written,List.mem_flatMap] at inside
    obtain ⟨st,there,inside⟩ := inside
    exact valid.plain st there i.1 inside
  obtain ⟨tks,last,s,run,quiet,stand⟩ := lexerAlloc_render items blank 1 (by decide)
    layout plain
  rw [written] at stand
  obtain ⟨lno,parsed⟩ := configParseLoop_statements little sts
    (s := { cf := configAlloc .robsdRegress, lx := ⟨tks,last⟩ })
    valid.suits readable valid.plain valid.once rfl (fun _ _ => rfl) stand rfl
  have vars : first "regress".toList (variablesOf host sts) = _ := value_regress valid.suits
  have complete : missing { configAlloc .robsdRegress with vars := variablesOf host sts } = [] := by
    simp only [missing,List.map_eq_nil_iff,List.filter_eq_nil_iff,Bool.and_eq_true,Bool.not_eq_true',not_and]
    intro gr member req
    rcases required_table gr member req with robsddir | regress
    · rw [configPresent,robsddir]
      intro absent
      exact Bool.noConfusion ((present_robsddir valid).symm.trans absent)
    · rw [configPresent,regress,Config.value,vars,if_neg valid.named]
      intro impossible
      cases impossible
  refine ⟨{ configAlloc .robsdRegress with vars := variablesOf host sts },?_,rfl,rfl⟩
  have start : lexerAlloc (configReader (configAlloc .robsdRegress).mode) ⟨.start (render blank items),[]⟩ =
    .ok (⟨tks,last⟩,s) :=
    run
  simp only [configParse,start,quiet,List.map_nil,List.length_nil,configParseInner,parsed]
  rw [if_neg (by simp [changed,past]),if_neg]
  · rfl
  · intro incomplete
    exact incomplete complete

/-- The grammars a suite variable falls under. -/
theorem pattern_targets :
    ((grammar .robsdRegress).find? fun gr => gr.flags.pat && gr.kw = regressname ['*'] "targets".toList) =
    some ⟨"regress-*-targets".toList,.list,none,{ pat := true },.fn .regressTargets⟩ := by decide

theorem pattern_parallel :
    ((grammar .robsdRegress).find? fun gr => gr.flags.pat && gr.kw = regressname ['*'] "parallel".toList) =
    some ⟨"regress-*-parallel".toList,.integer,none,{ pat := true },.fn .parallel⟩ := by decide

theorem pattern_timeout :
    ((grammar .robsdRegress).find? fun gr => gr.flags.pat && gr.kw = regressname ['*'] "timeout".toList) =
    some ⟨"regress-*-timeout".toList,.integer,none,{ pat := true },.fn .regressTimeout⟩ := by decide

theorem pattern_quiet :
    ((grammar .robsdRegress).find? fun gr => gr.flags.pat && gr.kw = regressname ['*'] "quiet".toList) =
    none := by decide

theorem pattern_root :
    ((grammar .robsdRegress).find? fun gr => gr.flags.pat && gr.kw = regressname ['*'] "root".toList) =
    none := by decide +kernel

section
variable {cf : Config} (mode : cf.mode = .robsdRegress)
include mode

/-- What is found for a variable is its value, else the default. -/
theorem find_targets (suite : Str) : (configFind host (regressname suite "targets".toList) cf).1 =
    (cf.value (regressname suite "targets".toList)).or (some (.list ["regress".toList])) := by
  cases value : cf.value (regressname suite "targets".toList) with
  | some val => rw [configFind_present value]; rfl
  | none =>
    rw [configFind_absent value,mode,configFindGrammarForInterpolation_suite suite (by decide),pattern_targets]
    rfl

theorem find_parallel (suite : Str) : (configFind host (regressname suite "parallel".toList) cf).1 =
    (cf.value (regressname suite "parallel".toList)).or ((cf.value "parallel".toList).or (some (.integer 1))) := by
  cases value : cf.value (regressname suite "parallel".toList) with
  | some val => rw [configFind_present value]; rfl
  | none =>
    have constant : (configFindGrammarForInterpolation .robsdRegress "parallel".toList).map (constant host) =
      some (.integer 1) := rfl
    rw [configFind_absent value,mode,configFindGrammarForInterpolation_suite suite (by decide),pattern_parallel]
    simp only [configDefault,configFindConstant,mode,constant]
    rfl

theorem find_timeout (suite : Str) : (configFind host (regressname suite "timeout".toList) cf).1 =
    (cf.value (regressname suite "timeout".toList)).or
      ((cf.value "regress-timeout".toList).or (some (.integer 0))) := by
  cases value : cf.value (regressname suite "timeout".toList) with
  | some val => rw [configFind_present value]; rfl
  | none =>
    have constant : (configFindGrammarForInterpolation .robsdRegress "regress-timeout".toList).map (constant host) =
      some (.integer 0) := rfl
    rw [configFind_absent value,mode,configFindGrammarForInterpolation_suite suite (by decide),pattern_timeout]
    simp only [configDefault,configFindConstant,mode,constant]
    rfl

/-- A variable the grammar does not know is found only where it is there. -/
theorem find_unknown {name : Str} (unknown : configFindGrammarForInterpolation .robsdRegress name = none) :
    (configFind host name cf).1 = cf.value name := by
  cases value : cf.value name with
  | some val => rw [configFind_present value]
  | none => rw [configFind_absent value,mode,unknown]

end

/-! ## The round trip -/

theorem option_quiet (o : SuiteOption) (named : optionSuffix o = some "quiet".toList) : o = .quiet := by
  cases o with
  | quiet => rfl
  | obj xs => cases named
  | packages xs => cases named
  | noParallel | root | targets | timeout => exact absurd (Option.some.inj named) (by decide)

theorem option_root (o : SuiteOption) (named : optionSuffix o = some "root".toList) : o = .root := by
  cases o with
  | root => rfl
  | obj xs => cases named
  | packages xs => cases named
  | noParallel | quiet | targets | timeout => exact absurd (Option.some.inj named) (by decide)

theorem option_noParallel (o : SuiteOption) (named : optionSuffix o = some "parallel".toList) : o = .noParallel := by
  cases o with
  | noParallel => rfl
  | obj xs => cases named
  | packages xs => cases named
  | quiet | root | targets | timeout => exact absurd (Option.some.inj named) (by decide)

/-- What the statements give is what is found. -/
theorem reads_variables {sts : List Statement} (valid : Valid host sts) {cf : Config} (mode : cf.mode = .robsdRegress)
    (vars : cf.vars = variablesOf host sts) : Reads host sts cf := by
  have suits := valid.suits
  have value : ∀ name, cf.value name = first name (variablesOf host sts) := fun name => by rw [Config.value,vars]
  have own : ∀ {kw gr fn}, Keyword kw gr fn → fn ≠ .regressEnv →
      cf.value kw = (given kw sts).bind (Argument.value host fn) := fun known other =>
    (value _).trans (value_global suits valid.once known other [] rfl)
  have parallel : Keyword "parallel".toList ⟨"parallel".toList,.integer,some .boolean,{},.i32 1⟩ .boolean :=
    (@suits_keyword host _ (.boolean true)) rfl trivial
  have timeout : Keyword "regress-timeout".toList ⟨"regress-timeout".toList,.integer,some .timeout,{},.null⟩ .timeout :=
    (@suits_keyword host _ (.timeout 0 .seconds)) rfl (show 1*0 ≤ intMax by decide)
  refine ⟨?_,?_,?_,?_,?_,?_,?_,?_,?_⟩
  · have there := (value "regress".toList).trans (value_regress suits)
    rw [if_neg valid.named] at there
    rw [configFind_present there]
  · intro suite
    rw [find_targets mode,value,value_targets suits]
    split <;> rfl
  · rw [find_unknown mode (by decide),value,value_obj suits]
  · rw [find_unknown mode (by decide),value,value_packages suits]
  · intro suite
    rw [find_timeout mode,value,value_timeout suits,own timeout (by decide),given_timeout suits]
    cases (timeouts suite sts).head? <;> rfl
  · intro suite
    rw [find_parallel mode,value,value_flag suits suite (by decide) option_noParallel rfl,own parallel (by decide),
      given_parallel suits]
    split <;> rfl
  · intro suite
    rw [find_unknown mode ((configFindGrammarForInterpolation_suite suite (by decide)).trans pattern_quiet),value,
      value_flag suits suite (by decide) option_quiet rfl]
  · intro suite
    rw [find_unknown mode ((configFindGrammarForInterpolation_suite suite (by decide)).trans pattern_root),value,
      value_flag suits suite (by decide) option_root rfl]
  · intro kw arg gr fn val member found other gives
    obtain ⟨gr',fn',known,fits⟩ := statement_keyword (suits _ member)
    have same := known.found
    rw [found] at same
    cases same
    have once : given kw sts = some arg := given_once valid.once member (mt known.env.mpr other)
    have there := own known other
    rw [once,Option.bind_some,gives] at there
    rw [configFind_present there]

/-- A configuration of robsd-regress that is written out, whatever its layout,
    is accepted and read back: the suites in their order, the targets of each
    suite, the object directories and packages of all, and the timeout, the
    flags and the parallelism of each suite. -/
theorem regress_round_trip (little : host.bigEndian = false) {sts : List Statement} (valid : Valid host sts)
    (readable : ∀ st ∈ sts, st.Readable host) {blank : Str} {items : List (Lexeme × Str)} (layout : Layout blank items)
    (written : items.map Prod.fst = sts.flatMap Statement.lexemes) :
    ∃ cf, configParse host (render blank items) (configAlloc .robsdRegress) = .ok cf ∧ Reads host sts cf := by
  obtain ⟨cf,parsed,mode,vars⟩ := configParse_render little valid readable layout written
  exact ⟨cf,parsed,reads_variables valid mode vars⟩

/-- A machine on which every path is a directory, every user exists and patterns
    that start with a slash cannot be read. -/
def sampleHost : Host where
  machine := "amd64".toList
  machineArch := "amd64".toList
  bigEndian := false
  execDir := none
  inet4 := none
  inet6 := none
  processors := 4
  user _ := true
  stat _ := .directory
  glob pattern := if pattern.head? = some '/' then .failed "Permission denied".toList else .noMatch
  read _ := none

/-- Three statements for two suites, with a default for their timeouts. -/
def sampleStatements : List Statement := [
  .suite "bin/cat".toList [.targets ["a".toList],.noParallel,.obj ["usr.bin/cat".toList]],
  .global "robsddir".toList (.string "/home/robsd".toList),
  .global "regress-timeout".toList (.timeout 2 .minutes),
  .suite "lib/c".toList [.root,.targets ["b".toList]],
  .suite "bin/cat".toList [.targets ["c".toList,"d".toList],.timeout 1 .hours]]

theorem sample_valid : Valid sampleHost sampleStatements := by
  refine ⟨?_,by decide,by decide,⟨.string "/home/robsd".toList,.tail _ (.head _)⟩,by decide⟩
  intro st member
  simp only [sampleStatements,List.mem_cons,List.not_mem_nil,or_false] at member
  rcases member with rfl | rfl | rfl | rfl | rfl
  · intro n u option
    simp at option
  · exact ⟨_,_,rfl,by decide,rfl⟩
  · exact ⟨_,_,rfl,show 60*2 ≤ intMax by decide⟩
  · intro n u option
    simp at option
  · intro n u option
    simp only [List.mem_cons,SuiteOption.timeout.injEq,List.not_mem_nil,or_false,reduceCtorEq,false_or] at option
    obtain ⟨rfl,rfl⟩ := option
    decide

theorem sample_readable : ∀ st ∈ sampleStatements, st.Readable sampleHost := by
  intro st member
  simp only [sampleStatements,List.mem_cons,List.not_mem_nil,or_false] at member
  rcases member with rfl | rfl | rfl | rfl | rfl
  · trivial
  · intro gr impossible
    cases impossible
  · trivial
  · trivial
  · trivial

theorem regress_round_trip_sample : ∃ cf,
    configParse sampleHost (render [] (spaced (sampleStatements.flatMap Statement.lexemes)))
      (configAlloc .robsdRegress) = .ok cf ∧ Reads sampleHost sampleStatements cf :=
  regress_round_trip rfl sample_valid sample_readable (layout_spaced _) (spaced_fst _)

/-- A suite without options. -/
def bareStatements : List Statement :=
  [.global "robsddir".toList (.string "/home/robsd".toList),.suite "bin/cat".toList []]

/-- A pattern that cannot be read. -/
def globStatements : List Statement := .global "bsd-diff".toList (.string "/root/*".toList) :: bareStatements

theorem bare_valid : Valid sampleHost bareStatements := by
  refine ⟨?_,by decide,by decide +kernel,⟨.string "/home/robsd".toList,.head _⟩,by decide⟩
  intro st member
  simp only [bareStatements,List.mem_cons,List.not_mem_nil,or_false] at member
  rcases member with rfl | rfl
  · exact ⟨_,_,rfl,by decide,rfl⟩
  · intro n u option
    cases option

theorem glob_valid : Valid sampleHost globStatements := by
  refine ⟨?_,by decide +kernel,by decide +kernel,⟨.string "/home/robsd".toList,.tail _ (.head _)⟩,by decide⟩
  intro st member
  rcases List.mem_cons.mp member with rfl | bare
  · exact ⟨_,_,rfl,trivial⟩
  · exact bare_valid.suits st bare

/-- Without any option of that kind, no list of object directories is found, not
    even an empty one; and a pattern that cannot be read is an error. -/
theorem regress_round_trip_exceptions :
    (¬ ∀ (host : Host) (sts : List Statement) (blank : Str) (items : List (Lexeme × Str)), host.bigEndian = false →
      Valid host sts → (∀ st ∈ sts, st.Readable host) → Layout blank items →
      items.map Prod.fst = sts.flatMap Statement.lexemes →
      ∃ cf, configParse host (render blank items) (configAlloc .robsdRegress) = .ok cf ∧
        (configFind host "regress-obj".toList cf).1 = some (.list (objs sts).flatten)) ∧
    (¬ ∀ (host : Host) (sts : List Statement) (blank : Str) (items : List (Lexeme × Str)), host.bigEndian = false →
      Valid host sts → Layout blank items → items.map Prod.fst = sts.flatMap Statement.lexemes →
      ∃ cf, configParse host (render blank items) (configAlloc .robsdRegress) = .ok cf) := by
  constructor
  · intro all
    have readable : ∀ st ∈ bareStatements, st.Readable sampleHost := by
      intro st member
      simp only [bareStatements,List.mem_cons,List.not_mem_nil,or_false] at member
      rcases member with rfl | rfl
      · intro gr impossible
        cases impossible
      · trivial
    obtain ⟨cf,parsed,found⟩ := all sampleHost bareStatements [] (spaced (bareStatements.flatMap Statement.lexemes)) rfl
      bare_valid readable (layout_spaced _) (spaced_fst _)
    have run : (configParse sampleHost (render [] (spaced (bareStatements.flatMap Statement.lexemes)))
        (configAlloc .robsdRegress)).toOption.map (fun cf => (configFind sampleHost "regress-obj".toList cf).1) =
        some none := by decide +kernel
    rw [parsed] at run
    cases found.symm.trans (Option.some.inj run)
  · intro all
    obtain ⟨cf,parsed⟩ := all sampleHost globStatements [] (spaced (globStatements.flatMap Statement.lexemes)) rfl
      glob_valid (layout_spaced _) (spaced_fst _)
    have run : (configParse sampleHost (render [] (spaced (globStatements.flatMap Statement.lexemes)))
        (configAlloc .robsdRegress)).toOption = none := by decide +kernel
    rw [parsed] at run
    cases run

end Robsd.RegressRoundTrip
