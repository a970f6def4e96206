import Robsd.RegressConfig

/-!
What the parser makes of the tokens of a configuration of robsd-regress: it
takes one statement after the other, with its changes to the variables.
-/
namespace Robsd.RegressParse
open Robsd.Strings
open Robsd.Lexer
open Robsd.Modes
open Robsd.Bindings
open Robsd.ConfigLexer (TokenType tokenTypeLookup configReader)
open Robsd.ConfigLayout
open Robsd.Configuration
open Robsd.ConfigParse
open Robsd.ConfigTokens
open Robsd.RegressConfig
open Robsd.Interpolate (interpolateStr interpolate_plain)
variable {host : Host}

/-- The state in which the variables were changed. -/
def changed (s : ParseState) (cs : List (Change Str Value)) : ParseState :=
  { s with cf := { s.cf with vars := applyAll cs s.cf.vars } }

theorem changed_changed (s : ParseState) (cs ds : List (Change Str Value)) :
    changed (changed s cs) ds = changed s (cs ++ ds) := by
  simp [changed,applyAll_append]

theorem past_changed (s : ParseState) (cs : List (Change Str Value)) (rest : List (Token TokenType)) (lno : Nat) :
    past (changed s cs) rest lno = changed (past s rest lno) cs := rfl

@[simp] theorem changed_pending (s : ParseState) (cs : List (Change Str Value)) :
    (changed s cs).lx.pending = s.lx.pending := rfl

@[simp] theorem changed_mode (s : ParseState) (cs : List (Change Str Value)) : (changed s cs).cf.mode = s.cf.mode := rfl

/-- Tokens that no option of a suite starts with. -/
def Ends (rest : List (Token TokenType)) : Prop := ∀ tk ∈ rest.head?, tk.type = .keyword

/-! ## Options -/

theorem optionList_stands {name : Str} {xs : List Str} {s : ParseState} {tks rest : List (Token TokenType)}
    (stand : List.Forall₂ (Stands mode) (braces xs) tks) (pending : s.lx.pending = tks ++ rest) :
    ∃ lno, optionList name s = (true,changed (past s rest lno) [extend name xs]) := by
  obtain ⟨lno,run⟩ := configParseList_stands stand pending
  exact ⟨lno,by simp [optionList,run,changed,configConcat,applyAll,extend]⟩

/-- An option is taken with its effect on the variables. -/
theorem regressOption_stands (little : host.bigEndian = false) (path : Str) {o : SuiteOption}
    (fits : ∀ n u, o = .timeout n u → u.scalar*n ≤ intMax) {s : ParseState} {tks rest : List (Token TokenType)}
    (stand : List.Forall₂ (Stands .robsdRegress) o.lexemes tks) (pending : s.lx.pending = tks ++ rest) :
    ∃ lno, regressOption host path s = some (true,changed (past s rest lno) [o.change path]) := by
  obtain ⟨w,ls,shape⟩ : ∃ w ls, o.lexemes = .word w :: ls := by cases o <;> exact ⟨_,_,rfl⟩
  rw [shape,List.forall₂_cons_left_iff] at stand
  obtain ⟨tk,tks,word,stand,rfl⟩ := stand
  have peek := peek_cons pending
  have next := (@advance_cons _ _ (tks ++ rest)) pending
  have ahead : (past s (tks ++ rest) tk.lno).lx.pending = tks ++ rest := rfl
  cases o with
  | noParallel =>
    cases shape
    cases stand
    rw [(@type_word _ _ .noParallel _) word (by decide) (by decide)] at peek
    exact ⟨tk.lno,by simp only [regressOption,peek,next]; rfl⟩
  | quiet =>
    cases shape
    cases stand
    rw [(@type_word _ _ .quiet _) word (by decide) (by decide)] at peek
    exact ⟨tk.lno,by simp only [regressOption,peek,next]; rfl⟩
  | root =>
    cases shape
    cases stand
    rw [(@type_word _ _ .root _) word (by decide) (by decide)] at peek
    exact ⟨tk.lno,by simp only [regressOption,peek,next]; rfl⟩
  | obj xs =>
    cases shape
    rw [(@type_word _ _ .obj _) word (by decide) (by decide)] at peek
    obtain ⟨lno,run⟩ := (@optionList_stands _ "regress-obj".toList) stand ahead
    exact ⟨lno,by simp only [regressOption,peek,next,run]; rfl⟩
  | packages xs =>
    cases shape
    rw [(@type_word _ _ .packages _) word (by decide) (by decide)] at peek
    obtain ⟨lno,run⟩ := (@optionList_stands _ "regress-packages".toList) stand ahead
    exact ⟨lno,by simp only [regressOption,peek,next,run]; rfl⟩
  | targets xs =>
    cases shape
    rw [(@type_word _ _ .targets _) word (by decide) (by decide)] at peek
    obtain ⟨lno,run⟩ := (@optionList_stands _ (regressname path "targets".toList)) stand ahead
    exact ⟨lno,by simp only [regressOption,peek,next,run]; rfl⟩
  | timeout n u =>
    cases shape
    rw [(@type_word _ _ .timeout _) word (by decide) (by decide)] at peek
    obtain ⟨lno,run⟩ := configParseTimeout_stands little (fits n u rfl) stand ahead
    exact ⟨lno,by simp only [regressOption,peek,next,optionTimeout,run]; rfl⟩

theorem regressOptions_eq (path : Str) (s : ParseState) : regressOptions host path s =
    match regressOption host path s with
    | none => (true,s)
    | some (false,s') => (false,s')
    | some (true,s') => regressOptions host path s' := by
  rw [regressOptions]
  split <;> simp_all

theorem regressOption_ends (path : Str) {s : ParseState} (ends : Ends s.lx.pending) :
    regressOption host path s = none := by
  unfold Ends at ends
  unfold regressOption ParseState.peek
  cases pending : s.lx.pending with
  | nil => rfl
  | cons tk tks =>
    rw [pending] at ends
    simp [ends tk rfl]

theorem regressOptions_stands (little : host.bigEndian = false) (path : Str) :
    ∀ (os : List SuiteOption) {s : ParseState}
    {tks rest : List (Token TokenType)}, (∀ n u, SuiteOption.timeout n u ∈ os → u.scalar*n ≤ intMax) →
      List.Forall₂ (Stands .robsdRegress) (os.flatMap SuiteOption.lexemes) tks →
        s.lx.pending = tks ++ rest → Ends rest →
      ∃ lno, regressOptions host path s = (true,changed (past s rest lno) (os.map (SuiteOption.change path)))
  | [],s,tks,rest,_,stand,pending,ends => by
    cases stand
    rw [List.nil_append] at pending
    refine ⟨s.last,?_⟩
    rw [regressOptions_eq,regressOption_ends path (by rw [pending]; exact ends)]
    simp [changed,applyAll,past,← pending]
  | o :: os,s,tks,rest,fits,stand,pending,ends => by
    obtain ⟨us,vs,rfl,first,later⟩ := stands_append stand
    rw [List.append_assoc] at pending
    obtain ⟨lno,option⟩ := regressOption_stands little path (o := o)
      (fun n u same => fits n u (by simp [same])) first pending
    obtain ⟨lno',run⟩ := regressOptions_stands little path os (s := changed (past s (vs ++ rest) lno) [o.change path])
      (fun n u member => fits n u (by simp [member])) later rfl ends
    refine ⟨lno',?_⟩
    rw [regressOptions_eq,option]
    dsimp only
    rw [run,past_changed,changed_changed,past_past]
    rfl

/-! ## Statements -/

theorem configParseLoop_eq (s : ParseState) : configParseLoop host s =
    if lexerPeekEof s.lx then (false,s)
    else match (s.expect .keyword).1 with
      | none => (true,(s.expect .keyword).2)
      | some tk =>
        let out := configParseKeyword host tk (s.expect .keyword).2
        match out.1 with
        | .fatal => (true,out.2)
        | .error => (true,(configParseLoop host out.2).2)
        | _ => configParseLoop host out.2 := by
  rw [configParseLoop]
  split
  · rfl
  · split
    · next got => rw [got]
    · next tk got =>
      cases result : (configParseKeyword host tk (s.expect .keyword).2).1 <;> simp only [got,result]

/-- The loop goes on behind a statement that is parsed. -/
theorem configParseLoop_keyword {s s' : ParseState} {tk : Token TokenType} {rest : List (Token TokenType)}
    {result : ConfigResult} (pending : s.lx.pending = tk :: rest) (type : tk.type = .keyword)
    (run : configParseKeyword host tk (past s rest tk.lno) = (result,s')) (fine : result ≠ .fatal ∧ result ≠ .error) :
    configParseLoop host s = configParseLoop host s' := by
  have got := expect_cons pending
  rw [type] at got
  rw [configParseLoop_eq,if_neg (by simp [lexerPeekEof,pending]),got]
  dsimp only
  rw [run]
  cases result with
  | fatal => exact absurd rfl fine.1
  | error => exact absurd rfl fine.2
  | append val => rfl
  | nop => rfl

/-- What the function behind a keyword makes of its argument, and the changes it
    makes by itself. -/
theorem parse_argument (little : host.bigEndian = false) {fn : Parser} {arg : Argument}
    (suits : arg.Suits host fn)
    (readable : ∀ str, arg = .string str → fn = .glob → ∀ reason, host.glob str ≠ .failed reason)
    (nonempty : ∀ str, arg = .string str → str ≠ []) (fits : ∀ n, arg = .integer n → n ≤ intMax)
    (other : fn ≠ .regressEnv) {s : ParseState} {tks rest : List (Token TokenType)}
    (stand : List.Forall₂ (Stands .robsdRegress) arg.lexemes tks) (pending : s.lx.pending = tks ++ rest) :
    ∃ lno, parse host fn s = ((arg.value host fn).elim .nop .append,past s rest lno) := by
  cases arg with
  | boolean b =>
    simp only [Argument.lexemes,List.forall₂_cons_left_iff,List.forall₂_nil_left_iff] at stand
    obtain ⟨tk,_,⟨lno,rfl⟩,rfl,rfl⟩ := stand
    refine ⟨lno,?_⟩
    cases fn <;> try exact absurd suits id
    cases b with
    | true =>
      have got : s.expect .boolean = _ := expect_cons pending
      simp only [parse,configParseBoolean,got]
      rfl
    | false =>
      have got : s.expect .boolean = _ := expect_cons pending
      simp only [parse,configParseBoolean,got]
      rfl
  | string str =>
    simp only [Argument.lexemes,List.forall₂_cons_left_iff,List.forall₂_nil_left_iff] at stand
    obtain ⟨tk,_,string,rfl,rfl⟩ := stand
    obtain ⟨got,same⟩ := expect_string string pending
    refine ⟨tk.lno,?_⟩
    cases fn <;> try exact absurd suits id
    · obtain ⟨plain,directory⟩ := suits
      have whole : interpolateStr (configInterpolateLookup host) false str s.cf = (.ok str,s.cf) :=
        interpolate_plain _ _ 3 plain s.cf
      simp only [parse,configParseDirectory,got,same,nonempty str rfl,↓reduceIte,past_cf,whole,directory]
      rfl
    · simp only [parse,configParseGlob,got,same]
      cases found : host.glob str with
      | noMatch => simp [Argument.value,found]
      | failed reason => exact absurd found (readable str rfl rfl reason)
      | paths xs => simp [Argument.value,found]
    · simp only [parse,configParseString,got,same]
      rfl
    · simp only [parse,configParseUser,got,same,show host.user str = true from suits,↓reduceIte]
      rfl
  | integer n =>
    simp only [Argument.lexemes,List.forall₂_cons_left_iff,List.forall₂_nil_left_iff] at stand
    obtain ⟨tk,_,integer,rfl,rfl⟩ := stand
    obtain ⟨got,value⟩ := expect_integer integer pending
    refine ⟨tk.lno,?_⟩
    cases fn <;> try exact absurd suits id
    simp only [parse,configParseInteger,got,value,i64_of_fits little (fits n rfl)]
    rfl
  | list xs =>
    obtain ⟨lno,run⟩ := configParseList_stands stand pending
    refine ⟨lno,?_⟩
    cases fn <;> try exact absurd suits id
    · exact run
    · exact absurd rfl other
  | timeout n u =>
    cases fn <;> try exact absurd suits id
    exact configParseTimeout_stands little suits stand pending

/-- The variables a suite is about, or all suites. -/
theorem suite_key {name : Str} {options : List SuiteOption} {c : Change Str Value}
    (member : c ∈ (Statement.suite name options).changes host) :
    c.key ∈ ["regress".toList,"regress-obj".toList,"regress-packages".toList] ∨ suiteNamed c.key = true := by
  simp only [Statement.changes,List.mem_append,List.mem_map,List.mem_singleton] at member
  rcases member with ⟨o,_,rfl⟩ | rfl
  · cases o with
    | obj xs => exact .inl (by simp [SuiteOption.change,extend,Change.key])
    | packages xs => exact .inl (by simp [SuiteOption.change,extend,Change.key])
    | noParallel | quiet | root | targets | timeout => exact .inr (regressname_suiteNamed _ _)
  · exact .inl (by simp [extend,Change.key])

theorem changes_global {kw : Str} {arg : Argument} {gr : Grammar} {fn : Parser}
    (found : configFindGrammarForKeyword .robsdRegress kw = some (gr,fn)) (other : fn ≠ .regressEnv) :
    (Statement.global kw arg).changes host = (arg.value host fn).toList.map (.bind kw) := by
  simp only [Statement.changes,found]
  cases fn <;> first | rfl | exact absurd rfl other

theorem global_key {kw : Str} {arg : Argument} {c : Change Str Value}
    (member : c ∈ (Statement.global kw arg).changes host) : c.key = kw := by
  simp only [Statement.changes] at member
  split at member
  · rw [List.mem_singleton.mp member]
    rfl
  · obtain ⟨val,_,rfl⟩ := List.mem_map.mp member
    rfl
  · cases member

/-- The keywords whose statements give one variable each. -/
theorem global_table : ∀ gr ∈ grammar .robsdRegress, gr.fn.isSome → gr.fn ≠ some .regress →
    gr.kw ∉ ["regress".toList,"regress-obj".toList,"regress-packages".toList] ∧
    (gr.fn = some .regressEnv ↔ gr.kw = "regress-env".toList) ∧ (gr.fn = some .regressEnv ↔ gr.flags.rep = true) := by
  decide

/-- What is known of a keyword whose argument suits it. -/
structure Keyword (kw : Str) (gr : Grammar) (fn : Parser) : Prop where
  found : configFindGrammarForKeyword .robsdRegress kw = some (gr,fn)
  notSuite : suiteNamed kw = false
  word : tokenTypeLookup .robsdRegress kw .keyword = .keyword
  other : kw ∉ ["regress".toList,"regress-obj".toList,"regress-packages".toList]
  env : fn = .regressEnv ↔ kw = "regress-env".toList
  rep : fn = .regressEnv ↔ gr.flags.rep = true

theorem suits_keyword {kw : Str} {arg : Argument} {gr : Grammar} {fn : Parser}
    (found : configFindGrammarForKeyword .robsdRegress kw = some (gr,fn)) (suits : arg.Suits host fn) :
    Keyword kw gr fn := by
  obtain ⟨member,fn',rfl⟩ := keyword_mem found
  have some : gr.fn.isSome := by simp [fn']
  have notRegress : gr.fn ≠ .some .regress := by
    rw [fn']
    rintro ⟨⟩
    cases arg <;> exact suits
  obtain ⟨notSuite,word⟩ := keyword_table gr member some
  obtain ⟨other,env,rep⟩ := global_table gr member some notRegress
  rw [fn',Option.some.injEq] at env rep
  exact ⟨found,notSuite,word,other,env,rep⟩

theorem keywords_global {kw : Str} {arg : Argument} (once : kw ≠ "regress-env".toList) :
    keywords [.global kw arg] = [kw] := by
  simp only [keywords,List.filterMap_cons,if_neg once,List.filterMap_nil]

/-- The state behind a statement, its keyword being new unless it may be repeated. -/
theorem configParseLoop_statement (little : host.bigEndian = false) {st : Statement} (suits : st.Suits host)
    (readable : st.Readable host) (plain : ∀ l ∈ st.lexemes, l.Plain) {s : ParseState}
    (mode : s.cf.mode = .robsdRegress) (fresh : ∀ kw ∈ keywords [st], s.cf.value kw = none)
    {tks rest : List (Token TokenType)} (stand : List.Forall₂ (Stands .robsdRegress) st.lexemes tks)
    (pending : s.lx.pending = tks ++ rest) (ends : Ends rest) :
    ∃ lno, configParseLoop host s = configParseLoop host (changed (past s rest lno) (st.changes host)) := by
  cases st with
  | suite name os =>
    simp only [Statement.lexemes,List.forall₂_cons_left_iff] at stand
    obtain ⟨tk,_,word,⟨tk',tks,string,stand,rfl⟩,rfl⟩ := stand
    obtain ⟨type,str⟩ := keyword_word word (by decide)
    obtain ⟨got,same⟩ := expect_string string (s := past s (tk' :: (tks ++ rest)) tk.lno) rfl
    obtain ⟨lno,options⟩ := regressOptions_stands little name os suits stand
      (s := past (past s (tk' :: (tks ++ rest)) tk.lno) (tks ++ rest) tk'.lno) rfl ends
    refine ⟨lno,(@configParseLoop_keyword _ _ _ _ (tk' :: (tks ++ rest)) .nop) pending type ?_ (by decide)⟩
    have regress : ∃ gr, configFindGrammarForKeyword .robsdRegress "regress".toList = some (gr,.regress) ∧
        gr.flags.rep = true := ⟨_,rfl,rfl⟩
    obtain ⟨gr,found,rep⟩ := regress
    have parsed : parse host .regress (past s (tk' :: (tks ++ rest)) tk.lno) =
        (.nop,changed (past s rest lno) ((Statement.suite name os).changes host)) := by
      simp only [parse,configParseRegress,got,same,options]
      rw [show (Statement.suite name os).changes host = os.map (SuiteOption.change name) ++
        [extend "regress".toList [name]]
        from rfl,← changed_changed]
      rfl
    simp only [configParseKeyword,past_cf,mode,str,found]
    rw [parsed]
    simp [rep]
  | global kw arg =>
    obtain ⟨gr,fn,found,suits⟩ := suits
    have known := suits_keyword found suits
    simp only [Statement.lexemes,List.forall₂_cons_left_iff] at stand
    obtain ⟨tk,tks,word,stand,rfl⟩ := stand
    obtain ⟨type,str⟩ := keyword_word word known.word
    have ahead : (past s (tks ++ rest) tk.lno).lx.pending = tks ++ rest := rfl
    by_cases env : fn = .regressEnv
    · subst env
      have rep := known.rep.mp rfl
      cases arg <;> try exact absurd suits id
      next xs =>
      obtain ⟨lno,run⟩ := configParseList_stands stand ahead
      refine ⟨lno,(@configParseLoop_keyword _ _ _ _ (tks ++ rest) .nop) pending type ?_ (by decide)⟩
      simp only [configParseKeyword,past_cf,mode,str,found,parse,configParseRegressEnv,run,rep]
      rw [show (Statement.global kw (.list xs)).changes host = [extend kw xs] from by simp [Statement.changes,found]]
      rw [known.env.mp rfl]
      rfl
    · have noRep : gr.flags.rep = false := by
        cases rep : gr.flags.rep with
        | false => rfl
        | true => exact absurd (known.rep.mpr rep) env
      have unset : s.cf.value kw = none :=
        fresh kw (by rw [keywords_global (mt known.env.mpr env)]; exact List.mem_singleton_self kw)
      obtain ⟨lno,run⟩ := parse_argument little suits
        (fun str same glob => by subst same glob; exact readable gr found)
        (fun str same => by subst same; exact (plain (.string str) (by simp [Statement.lexemes,Argument.lexemes])).1)
        (fun n same => by
          subst same
          have fits := (plain (number n) (by simp [Statement.lexemes,Argument.lexemes])).2.2
          rwa [Nat.ofDigitChars_ten_toDigits] at fits)
        env stand ahead
      have keyword : configParseKeyword host tk (past s (tks ++ rest) tk.lno) =
          ((arg.value host fn).elim .nop .append,changed (past s rest lno)
            ((Statement.global kw arg).changes host)) := by
        simp only [configParseKeyword,past_cf,mode,str,found,run,noRep,configPresent,unset]
        rw [changes_global found env]
        cases arg.value host fn <;> rfl
      refine ⟨lno,configParseLoop_keyword pending type keyword ?_⟩
      cases arg.value host fn <;> exact ⟨nofun,nofun⟩

/-! ## Whole configurations -/

theorem mem_keywords {kw : Str} {sts : List Statement} :
    kw ∈ keywords sts ↔ (∃ arg, Statement.global kw arg ∈ sts) ∧ kw ≠ "regress-env".toList := by
  unfold keywords
  rw [List.mem_filterMap]
  constructor
  · rintro ⟨st,member,same⟩
    cases st with
    | suite name os => cases same
    | global kw' arg =>
      dsimp only at same
      split at same
      · cases same
      · next other =>
        cases same
        exact ⟨⟨arg,member⟩,other⟩
  · rintro ⟨⟨arg,member⟩,other⟩
    exact ⟨.global kw arg,member,if_neg other⟩

theorem keywords_cons (st : Statement) (sts : List Statement) : keywords (st :: sts) = keywords [st] ++ keywords sts :=
  List.filterMap_append (l := [st])

/-- A statement leaves the variables of the other keywords alone. -/
theorem changes_other {st : Statement} {kw : Str} {gr : Grammar} {fn : Parser} (known : Keyword kw gr fn)
    (other : ∀ arg, st ≠ .global kw arg) : ∀ c ∈ st.changes host, c.key ≠ kw := by
  intro c member
  cases st with
  | suite name os =>
    rintro rfl
    rcases suite_key member with fixed | named
    · exact known.other fixed
    · rw [known.notSuite] at named
      cases named
  | global kw' arg =>
    rw [global_key member]
    rintro rfl
    exact other arg rfl

/-- The keyword of a statement that suits it. -/
theorem statement_keyword {kw : Str} {arg : Argument} (suits : (Statement.global kw arg).Suits host) :
    ∃ gr fn, Keyword kw gr fn ∧ arg.Suits host fn := by
  obtain ⟨gr,fn,found,suits⟩ := suits
  exact ⟨gr,fn,suits_keyword found suits,suits⟩

/-- Statements start with a keyword. -/
theorem ends_statements {sts : List Statement} (suits : ∀ st ∈ sts, st.Suits host) {tks : List (Token TokenType)}
    (stand : List.Forall₂ (Stands .robsdRegress) (sts.flatMap Statement.lexemes) tks) : Ends tks := by
  cases sts with
  | nil =>
    cases stand
    exact fun _ impossible => nomatch impossible
  | cons st sts =>
    obtain ⟨kw,ls,shape,known⟩ : ∃ kw ls, st.lexemes = .word kw :: ls ∧
      tokenTypeLookup .robsdRegress kw .keyword = .keyword := by
      cases st with
      | suite name os => exact ⟨_,_,rfl,by decide⟩
      | global kw arg =>
        obtain ⟨gr,fn,known,_⟩ := statement_keyword (suits (.global kw arg) (by simp))
        exact ⟨kw,_,rfl,known.word⟩
    rw [List.flatMap_cons,shape,List.cons_append,List.forall₂_cons_left_iff] at stand
    obtain ⟨tk,tks,word,_,rfl⟩ := stand
    intro tk' head
    cases head
    exact (keyword_word word known).1

/-- All statements are parsed, with their effects one after the other. -/
theorem configParseLoop_statements (little : host.bigEndian = false) : ∀ (sts : List Statement) {s : ParseState}
    {tks : List (Token TokenType)}, (∀ st ∈ sts, st.Suits host) → (∀ st ∈ sts, st.Readable host) →
      (∀ st ∈ sts, ∀ l ∈ st.lexemes, l.Plain) → (keywords sts).Nodup → s.cf.mode = .robsdRegress →
      (∀ kw ∈ keywords sts, s.cf.value kw = none) →
      List.Forall₂ (Stands .robsdRegress) (sts.flatMap Statement.lexemes) tks → s.lx.pending = tks →
      ∃ lno, configParseLoop host s = (false,changed (past s [] lno) (sts.flatMap (Statement.changes host)))
  | [],s,tks,_,_,_,_,_,_,stand,pending => by
    cases stand
    refine ⟨s.last,?_⟩
    rw [configParseLoop_eq,if_pos (by simp [lexerPeekEof,pending])]
    simp [changed,applyAll,past,← pending]
  | st :: sts,s,tks,suits,readable,plain,once,mode,fresh,stand,pending => by
    have later : ∀ st ∈ sts, st.Suits host := fun st member => suits st (by simp [member])
    rw [keywords_cons,List.nodup_append] at once
    obtain ⟨_,once,disjoint⟩ := once
    obtain ⟨us,vs,rfl,first,second⟩ := stands_append stand
    obtain ⟨lno,step⟩ := configParseLoop_statement little (suits st (by simp)) (readable st (by simp))
      (plain st (by simp)) mode (fun kw member => fresh kw (by rw [keywords_cons]; simp [member])) first pending
      (ends_statements later second)
    have untouched : ∀ kw ∈ keywords sts, (changed (past s vs lno) (st.changes host)).cf.value kw = none := by
      intro kw member
      obtain ⟨⟨arg,given⟩,notEnv⟩ := mem_keywords.mp member
      obtain ⟨gr,fn,known,_⟩ := statement_keyword (later _ given)
      have others := (@changes_other host st) known fun arg' same => by
        subst same
        exact disjoint kw (by rw [keywords_global notEnv]; simp) kw member rfl
      exact (first_applyAll_other others s.cf.vars).trans (fresh kw (by rw [keywords_cons]; simp [member]))
    obtain ⟨lno',run⟩ := configParseLoop_statements little sts (s := changed (past s vs lno) (st.changes host)) later
      (fun st member => readable st (by simp [member])) (fun st member => plain st (by simp [member])) once mode
      untouched second rfl
    exact ⟨lno',by rw [step,run,past_changed,changed_changed,past_past]; rfl⟩

end Robsd.RegressParse
