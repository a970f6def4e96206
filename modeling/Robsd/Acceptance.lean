import Robsd.Growth

/-!
The other direction: a text whose statements can be run is accepted. Each
function that parses takes the tokens of an argument that can be run, whatever
follows them, and with this `config_parse` accepts exactly the texts whose
statements run and leave no required variable out.
-/
namespace Robsd.Acceptance
open Robsd.Strings
open Robsd.Lexer
open Robsd.Modes
open Robsd.ConfigLexer (TokenType i32 configReader)
open Robsd.Configuration
open Robsd.ConfigParse
open Robsd.ConfigTokens (past configParseStrings_eq expect_cons peek_cons advance_cons)
open Robsd.RegressParse (configParseLoop_eq regressOptions_eq)
open Robsd.Interpolate (interpolateStr)
open Robsd.Statements
variable {host : Host}

/-- The state behind some tokens, with another configuration. -/
def reached (s : ParseState) (rest : List (Token TokenType)) (lno : Nat) (cf : Config) : ParseState :=
  { past s rest lno with cf := cf }

@[simp] theorem reached_reached (s : ParseState) (rest rest' : List (Token TokenType)) (lno lno' : Nat)
    (cf cf' : Config) :
    reached (reached s rest lno cf) rest' lno' cf' = reached s rest' lno' cf' := rfl

@[simp] theorem reached_pending (s : ParseState) (rest : List (Token TokenType)) (lno : Nat) (cf : Config) :
    (reached s rest lno cf).lx.pending = rest := rfl

@[simp] theorem reached_cf (s : ParseState) (rest : List (Token TokenType)) (lno : Nat) (cf : Config) :
    (reached s rest lno cf).cf = cf := rfl

@[simp] theorem reached_err (s : ParseState) (rest : List (Token TokenType)) (lno : Nat) (cf : Config) :
    (reached s rest lno cf).err = s.err := rfl

/-! ## Tokens -/

theorem datum_keyword {tk : Token TokenType} {kw : Str} (meant : datum tk = .keyword kw) :
    tk.type = .keyword ∧ tk.str = kw := by
  unfold datum at meant
  split at meant <;> simp_all

theorem datum_string {tk : Token TokenType} {str : Str} (meant : datum tk = .string str) :
    tk.type = .string ∧ tk.str = str := by
  unfold datum at meant
  split at meant <;> simp_all

theorem datum_integer {tk : Token TokenType} {n : Int} (meant : datum tk = .integer n) :
    tk.type = .integer ∧ tk.int = n := by
  unfold datum at meant
  split at meant <;> simp_all

theorem datum_boolean {tk : Token TokenType} {n : Int} (meant : datum tk = .boolean n) :
    tk.type = .boolean ∧ tk.int = n := by
  unfold datum at meant
  split at meant <;> simp_all

theorem datum_other {tk : Token TokenType} {type : TokenType} (meant : datum tk = .other type) : tk.type = type := by
  unfold datum at meant
  split at meant <;> simp_all

/-- The token that says what comes first. -/
theorem pending_cons {s : ParseState} {d : Datum} {ds : List Datum} (ahead : s.lx.pending.map datum = d :: ds) :
    ∃ tk tks, s.lx.pending = tk :: tks ∧ datum tk = d ∧ tks.map datum = ds := by
  obtain ⟨tk,tks,pending,meant,rest⟩ := List.map_eq_cons_iff.mp ahead
  exact ⟨tk,tks,pending,meant,rest⟩

theorem expect_runs {s : ParseState} {type : TokenType} {d : Datum} {ds : List Datum}
    (ahead : s.lx.pending.map datum = d :: ds) (typed : ∀ tk, datum tk = d → tk.type = type) :
    ∃ tk tks, s.expect type = (some tk,reached s tks tk.lno s.cf) ∧ datum tk = d ∧ tks.map datum = ds := by
  obtain ⟨tk,tks,pending,meant,rest⟩ := pending_cons ahead
  refine ⟨tk,tks,?_,meant,rest⟩
  rw [← typed tk meant]
  exact expect_cons pending

theorem expect_string {s : ParseState} {str : Str} {ds : List Datum}
    (ahead : s.lx.pending.map datum = .string str :: ds) :
    ∃ tk tks, s.expect .string = (some tk,reached s tks tk.lno s.cf) ∧ tk.str = str ∧ tks.map datum = ds := by
  obtain ⟨tk,tks,got,meant,rest⟩ := expect_runs ahead fun tk meant => (datum_string meant).1
  exact ⟨tk,tks,got,(datum_string meant).2,rest⟩

theorem expect_integer {s : ParseState} {n : Int} {ds : List Datum}
    (ahead : s.lx.pending.map datum = .integer n :: ds) :
    ∃ tk tks, s.expect .integer = (some tk,reached s tks tk.lno s.cf) ∧ tk.int = n ∧ tks.map datum = ds := by
  obtain ⟨tk,tks,got,meant,rest⟩ := expect_runs ahead fun tk meant => (datum_integer meant).1
  exact ⟨tk,tks,got,(datum_integer meant).2,rest⟩

theorem peek_runs {s : ParseState} {type : TokenType} {ds : List Datum}
    (ahead : s.lx.pending.map datum = .other type :: ds) :
    ∃ tks lno, s.peek = some type ∧ s.advance = reached s tks lno s.cf ∧ tks.map datum = ds := by
  obtain ⟨tk,tks,pending,meant,rest⟩ := pending_cons ahead
  refine ⟨tks,tk.lno,?_,advance_cons pending,rest⟩
  rw [peek_cons pending]
  exact congrArg some (datum_other meant)

/-! ## Lists, timeouts and directories -/

theorem configParseStrings_runs : ∀ (ys xs : List Str) {s : ParseState} {ds : List Datum},
    s.lx.pending.map datum = ys.map .string ++ .other .rbrace :: ds →
    ∃ tks lno, configParseStrings xs s = (.append (.list (xs ++ ys)),reached s tks lno s.cf) ∧ tks.map datum = ds
  | [],xs,s,ds,ahead => by
    obtain ⟨tks,lno,seen,advanced,rest⟩ := peek_runs ahead
    refine ⟨tks,lno,?_,rest⟩
    rw [configParseStrings_eq,if_pos seen,advanced,List.append_nil]
  | y :: ys,xs,s,ds,ahead => by
    obtain ⟨tk,tks,got,str,rest⟩ := expect_string ahead
    have notBrace : s.peek ≠ some .rbrace := by
      obtain ⟨tk',_,pending,meant,_⟩ := pending_cons ahead
      rw [peek_cons pending,(datum_string meant).1]
      intro impossible
      cases impossible
    obtain ⟨tks',lno,run,rest'⟩ := configParseStrings_runs ys (xs ++ [y]) (s := reached s tks tk.lno s.cf) rest
    refine ⟨tks',lno,?_,rest'⟩
    rw [configParseStrings_eq,if_neg notBrace,got]
    dsimp only
    rw [str,run,List.append_assoc]
    rfl

theorem configParseList_runs {xs : List Str} {s : ParseState} {ds : List Datum}
    (ahead : s.lx.pending.map datum = listData xs ++ ds) :
    ∃ tks lno, configParseList s = (.append (.list xs),reached s tks lno s.cf) ∧ tks.map datum = ds := by
  simp only [listData,List.cons_append,List.append_assoc,List.nil_append] at ahead
  obtain ⟨tk,tks,got,_,rest⟩ := expect_runs ahead fun tk meant => datum_other meant
  obtain ⟨tks',lno,run,rest'⟩ := configParseStrings_runs xs [] (s := reached s tks tk.lno s.cf) rest
  refine ⟨tks',lno,?_,rest'⟩
  rw [configParseList,got]
  exact run

theorem configParseTimeout_runs {n m : Int} {unit : TokenType} (scaled : seconds host n unit = some m) {s : ParseState}
    {ds : List Datum} (ahead : s.lx.pending.map datum = [.integer n,.other unit] ++ ds) :
    ∃ tks lno, configParseTimeout host s = (.append (.integer m),reached s tks lno s.cf) ∧ tks.map datum = ds := by
  obtain ⟨tk,tks,got,value,rest⟩ := expect_integer ahead
  obtain ⟨tks',lno,seen,advanced,rest'⟩ := peek_runs (s := reached s tks tk.lno s.cf) rest
  unfold seconds at scaled
  obtain ⟨factor,known,whole⟩ := Option.bind_eq_some_iff.mp scaled
  simp only [Option.ite_none_right_eq_some,Option.some.injEq] at whole
  obtain ⟨fits,rfl⟩ := whole
  refine ⟨tks',lno,?_,rest'⟩
  rw [configParseTimeout,got]
  dsimp only
  rw [seen,Option.bind_some,known,value]
  dsimp only
  rw [if_pos fits,advanced]
  rfl

theorem configParseDirectory_runs {str : Str} {s : ParseState} {cf : Config} {ds : List Datum}
    (ran : runDirectory host str s.cf = some cf) (ahead : s.lx.pending.map datum = .string str :: ds) :
    ∃ tks lno, configParseDirectory host s = (.append (.string str),reached s tks lno cf) ∧ tks.map datum = ds := by
  obtain ⟨tk,tks,got,rfl,rest⟩ := expect_string ahead
  refine ⟨tks,tk.lno,?_,rest⟩
  unfold runDirectory at ran
  rw [configParseDirectory,got]
  dsimp only
  split at ran
  · cases ran
  · next nonempty =>
    rw [if_neg nonempty,reached_cf]
    split at ran
    · next path cf' found =>
      rw [found]
      dsimp only
      cases stat : host.stat path with
      | directory =>
        rw [stat] at ran
        cases ran
        rfl
      | failed reason => rw [stat] at ran; cases ran
      | other => rw [stat] at ran; cases ran
    · cases ran

/-! ## Options -/

/-- What follows a statement: nothing or another one. -/
def Ended (ds : List Datum) : Prop := ∀ d ∈ ds.head?, ∃ kw, d = .keyword kw

theorem optionList_runs {name : Str} {xs : List Str} {s : ParseState} {ds : List Datum}
    (ahead : s.lx.pending.map datum = listData xs ++ ds) :
    ∃ tks lno, optionList name s = (true,reached s tks lno (configConcat s.cf name xs)) ∧ tks.map datum = ds := by
  obtain ⟨tks,lno,run,rest⟩ := configParseList_runs ahead
  exact ⟨tks,lno,by rw [optionList,run]; rfl,rest⟩

theorem optionEnv_runs {path : Str} {xs : List Str} {s : ParseState} {cf : Config} {ds : List Datum}
    (ran : runEnv host path xs s.cf = some cf) (ahead : s.lx.pending.map datum = listData xs ++ ds) :
    ∃ tks lno, configParseRegressOptionEnv host path s = (true,reached s tks lno cf) ∧ tks.map datum = ds := by
  obtain ⟨tks,lno,run,rest⟩ := configParseList_runs ahead
  refine ⟨tks,lno,?_,rest⟩
  unfold runEnv at ran
  dsimp only at ran
  rw [configParseRegressOptionEnv,run]
  dsimp only
  rw [reached_cf]
  cases early : configInterpolateEarly host (reference (regressname path "env".toList))
      (configAppend s.cf (regressname path "env".toList) (.list (reference "regress-env".toList :: xs))) with
  | mk found mid =>
    rw [early] at ran
    cases found with
    | none => cases ran
    | some str =>
      cases ran
      rfl

/-- An option is taken, whatever follows it. -/
theorem regressOption_runs {path : Str} {option : SuiteOption} {s : ParseState} {cf : Config} {ds : List Datum}
    (ran : option.run host path s.cf = some cf) (ahead : s.lx.pending.map datum = option.data ++ ds) :
    ∃ tks lno, regressOption host path s = some (true,reached s tks lno cf) ∧ tks.map datum = ds := by
  cases option with
  | env xs =>
    obtain ⟨tks,lno,seen,advanced,rest⟩ := peek_runs ahead
    obtain ⟨tks',lno',run,rest'⟩ := optionEnv_runs (s := reached s tks lno s.cf) ran rest
    refine ⟨tks',lno',?_,rest'⟩
    simp only [regressOption,seen,advanced,run]
    rfl
  | noParallel =>
    obtain ⟨tks,lno,seen,advanced,rest⟩ := peek_runs ahead
    cases ran
    refine ⟨tks,lno,?_,rest⟩
    simp only [regressOption,seen,advanced]
    rfl
  | quiet =>
    obtain ⟨tks,lno,seen,advanced,rest⟩ := peek_runs ahead
    cases ran
    refine ⟨tks,lno,?_,rest⟩
    simp only [regressOption,seen,advanced]
    rfl
  | root =>
    obtain ⟨tks,lno,seen,advanced,rest⟩ := peek_runs ahead
    cases ran
    refine ⟨tks,lno,?_,rest⟩
    simp only [regressOption,seen,advanced]
    rfl
  | obj xs =>
    obtain ⟨tks,lno,seen,advanced,rest⟩ := peek_runs ahead
    obtain ⟨tks',lno',run,rest'⟩ := (@optionList_runs "regress-obj".toList) (s := reached s tks lno s.cf) rest
    cases ran
    refine ⟨tks',lno',?_,rest'⟩
    simp only [regressOption,seen,advanced,run]
    rfl
  | packages xs =>
    obtain ⟨tks,lno,seen,advanced,rest⟩ := peek_runs ahead
    obtain ⟨tks',lno',run,rest'⟩ := (@optionList_runs "regress-packages".toList) (s := reached s tks lno s.cf) rest
    cases ran
    refine ⟨tks',lno',?_,rest'⟩
    simp only [regressOption,seen,advanced,run]
    rfl
  | targets xs =>
    obtain ⟨tks,lno,seen,advanced,rest⟩ := peek_runs ahead
    obtain ⟨tks',lno',run,rest'⟩ :=
      (@optionList_runs (regressname path "targets".toList)) (s := reached s tks lno s.cf) rest
    cases ran
    refine ⟨tks',lno',?_,rest'⟩
    simp only [regressOption,seen,advanced,run]
    rfl
  | timeout n unit =>
    obtain ⟨tks,lno,seen,advanced,rest⟩ := peek_runs ahead
    obtain ⟨m,scaled,rfl⟩ := Option.map_eq_some_iff.mp ran
    obtain ⟨tks',lno',run,rest'⟩ := configParseTimeout_runs scaled (s := reached s tks lno s.cf) rest
    refine ⟨tks',lno',?_,rest'⟩
    simp only [regressOption,seen,advanced,optionTimeout,run]
    rfl

/-- What is no option ends the options. -/
theorem peek_ended {s : ParseState} {ds : List Datum} (ahead : s.lx.pending.map datum = ds) (ended : Ended ds) :
    s.peek = none ∨ s.peek = some .keyword := by
  unfold ParseState.peek
  cases pending : s.lx.pending with
  | nil => exact .inl rfl
  | cons tk tks =>
    rw [pending,List.map_cons] at ahead
    obtain ⟨kw,meant⟩ := ended (datum tk) (by rw [← ahead]; rfl)
    exact .inr (congrArg some (datum_keyword meant).1)

theorem regressOptions_runs {path : Str} :
    ∀ (options : List SuiteOption) {s : ParseState} {cf : Config} {ds : List Datum},
    Ended ds → options.foldlM (SuiteOption.run host path) s.cf = some cf →
    s.lx.pending.map datum = options.flatMap SuiteOption.data ++ ds →
      ∃ tks lno, regressOptions host path s = (true,reached s tks lno cf) ∧ tks.map datum = ds
  | [],s,cf,ds,ended,ran,ahead => by
    cases ran
    refine ⟨s.lx.pending,s.last,?_,ahead⟩
    have none : regressOption host path s = none := by
      rcases peek_ended ahead ended with last | keyword
      · simp only [regressOption,last]
      · simp only [regressOption,keyword]
    rw [regressOptions_eq,none]
    rfl
  | option :: options,s,cf,ds,ended,ran,ahead => by
    rw [List.foldlM_cons] at ran
    obtain ⟨mid,first,later⟩ := Option.bind_eq_some_iff.mp ran
    rw [List.flatMap_cons,List.append_assoc] at ahead
    obtain ⟨tks,lno,run,rest⟩ := regressOption_runs first ahead
    obtain ⟨tks',lno',run',rest'⟩ := regressOptions_runs options (s := reached s tks lno mid) ended later rest
    refine ⟨tks',lno',?_,rest'⟩
    rw [regressOptions_eq,run]
    exact run'

theorem canvasOption_runs {option : StepOption} {command command' : List Str} {parallel parallel' : Bool}
    {s : ParseState} {cf : Config} {ds : List Datum}
    (ran : option.run host ((command,parallel),s.cf) = ((command',parallel'),cf))
    (ahead : s.lx.pending.map datum = option.data ++ ds) :
    ∃ tks lno, canvasOption host command parallel s = some (some (command',parallel'),reached s tks lno cf) ∧
      tks.map datum = ds := by
  cases option with
  | command xs =>
    obtain ⟨tks,lno,seen,advanced,rest⟩ := peek_runs ahead
    obtain ⟨tks',lno',run,rest'⟩ := configParseList_runs (s := reached s tks lno s.cf) rest
    refine ⟨tks',lno',?_,rest'⟩
    simp only [StepOption.run,Prod.mk.injEq] at ran
    obtain ⟨⟨rfl,rfl⟩,rfl⟩ := ran
    simp only [canvasOption,seen,advanced,run]
    rfl
  | parallel =>
    obtain ⟨tks,lno,seen,advanced,rest⟩ := peek_runs ahead
    cases ran
    refine ⟨tks,lno,?_,rest⟩
    simp only [canvasOption,seen,advanced]

theorem canvasOptions_runs :
    ∀ (options : List StepOption) {command command' : List Str} {parallel parallel' : Bool} {s : ParseState}
    {cf : Config} {ds : List Datum}, Ended ds →
    options.foldl (StepOption.run host) ((command,parallel),s.cf) = ((command',parallel'),cf) →
    s.lx.pending.map datum = options.flatMap StepOption.data ++ ds →
      ∃ tks lno, canvasOptions host command parallel s = (some (command',parallel'),reached s tks lno cf) ∧
        tks.map datum = ds
  | [],command,command',parallel,parallel',s,cf,ds,ended,ran,ahead => by
    cases ran
    refine ⟨s.lx.pending,s.last,?_,ahead⟩
    have none : canvasOption host command parallel s = none := by
      rcases peek_ended ahead ended with last | keyword
      · simp only [canvasOption,last]
      · simp only [canvasOption,keyword]
    rw [canvasOptions_eq,none]
    rfl
  | option :: options,command,command',parallel,parallel',s,cf,ds,ended,ran,ahead => by
    rw [List.foldl_cons] at ran
    obtain ⟨⟨⟨xs,flag⟩,mid⟩,first⟩ : ∃ out, option.run host ((command,parallel),s.cf) = out := ⟨_,rfl⟩
    rw [first] at ran
    rw [List.flatMap_cons,List.append_assoc] at ahead
    obtain ⟨tks,lno,run,rest⟩ := canvasOption_runs first ahead
    obtain ⟨tks',lno',run',rest'⟩ := canvasOptions_runs options (s := reached s tks lno mid) ended ran rest
    refine ⟨tks',lno',?_,rest'⟩
    rw [canvasOptions_eq,run]
    exact run'

/-! ## Statements -/

theorem append_fine (val : Value) : ConfigResult.append val ≠ .error ∧ ConfigResult.append val ≠ .fatal :=
  ⟨fun impossible => (by cases impossible),fun impossible => (by cases impossible)⟩

theorem nop_fine : ConfigResult.nop ≠ .error ∧ ConfigResult.nop ≠ .fatal :=
  ⟨fun impossible => (by cases impossible),fun impossible => (by cases impossible)⟩

/-- The function behind a keyword takes an argument that can be run. -/
theorem parse_runs {fn : Parser} {arg : Argument} {kw : Str} {s : ParseState} {cf : Config} {ds : List Datum}
    (ended : Ended ds) (ran : arg.run host kw s.cf fn = some cf)
    (ahead : s.lx.pending.map datum = arg.data ++ ds) :
    ∃ out tks lno cf', parse host fn s = (out,reached s tks lno cf') ∧ tks.map datum = ds ∧
      ConfigResult.settle kw cf' out = cf ∧ out ≠ .error ∧ out ≠ .fatal := by
  cases fn with
  | boolean =>
    cases arg <;> try cases ran
    obtain ⟨tk,tks,got,meant,rest⟩ := expect_runs ahead fun tk meant => (datum_boolean meant).1
    cases (datum_boolean meant).2
    refine ⟨.append (.integer (if tk.int = 0 then 0 else 1)),tks,tk.lno,s.cf,?_,rest,rfl,append_fine _⟩
    simp only [parse,configParseBoolean,got]
  | integer =>
    cases arg <;> try cases ran
    obtain ⟨tk,tks,got,rfl,rest⟩ := expect_integer ahead
    refine ⟨.append (.integer (host.i64 tk.int)),tks,tk.lno,s.cf,?_,rest,rfl,append_fine _⟩
    simp only [parse,configParseInteger,got]
  | string =>
    cases arg <;> try cases ran
    obtain ⟨tk,tks,got,rfl,rest⟩ := expect_string ahead
    refine ⟨.append (.string tk.str),tks,tk.lno,s.cf,?_,rest,rfl,append_fine _⟩
    simp only [parse,configParseString,got]
  | user =>
    cases arg <;> try cases ran
    obtain ⟨tk,tks,got,rfl,rest⟩ := expect_string ahead
    simp only [Argument.run,Option.ite_none_right_eq_some,Option.some.injEq] at ran
    obtain ⟨known,rfl⟩ := ran
    refine ⟨.append (.string tk.str),tks,tk.lno,s.cf,?_,rest,rfl,append_fine _⟩
    simp only [parse,configParseUser,got,known,↓reduceIte]
  | glob =>
    cases arg <;> try cases ran
    obtain ⟨tk,tks,got,rfl,rest⟩ := expect_string ahead
    simp only [Argument.run] at ran
    cases found : host.glob tk.str with
    | noMatch =>
      rw [found] at ran
      cases ran
      refine ⟨.nop,tks,tk.lno,s.cf,?_,rest,rfl,nop_fine⟩
      simp only [parse,configParseGlob,got,found]
    | failed reason => rw [found] at ran; cases ran
    | paths xs =>
      rw [found] at ran
      cases ran
      refine ⟨.append (.list xs),tks,tk.lno,s.cf,?_,rest,rfl,append_fine _⟩
      simp only [parse,configParseGlob,got,found]
  | list =>
    cases arg <;> try cases ran
    obtain ⟨tks,lno,run,rest⟩ := configParseList_runs ahead
    exact ⟨.append _,tks,lno,s.cf,run,rest,rfl,append_fine _⟩
  | timeout =>
    cases arg <;> try cases ran
    obtain ⟨m,scaled,rfl⟩ := Option.map_eq_some_iff.mp ran
    obtain ⟨tks,lno,run,rest⟩ := configParseTimeout_runs scaled ahead
    exact ⟨.append _,tks,lno,s.cf,run,rest,rfl,append_fine _⟩
  | directory =>
    cases arg <;> try cases ran
    obtain ⟨mid,found,rfl⟩ := Option.map_eq_some_iff.mp ran
    obtain ⟨tks,lno,run,rest⟩ := configParseDirectory_runs found ahead
    exact ⟨.append _,tks,lno,mid,run,rest,rfl,append_fine _⟩
  | canvasDirectory =>
    cases arg <;> try cases ran
    obtain ⟨mid,found,rfl⟩ := Option.map_eq_some_iff.mp ran
    obtain ⟨tks,lno,run,rest⟩ := configParseDirectory_runs found ahead
    refine ⟨.nop,tks,lno,_,?_,rest,rfl,nop_fine⟩
    simp only [parse,configParseCanvasDirectory,run]
    rfl
  | regressEnv =>
    cases arg <;> try cases ran
    obtain ⟨tks,lno,run,rest⟩ := configParseList_runs ahead
    refine ⟨.nop,tks,lno,_,?_,rest,rfl,nop_fine⟩
    simp only [parse,configParseRegressEnv,run]
    rfl
  | regress =>
    cases arg <;> try cases ran
    obtain ⟨mid,listed,rfl⟩ := Option.map_eq_some_iff.mp ran
    obtain ⟨tk,tks,got,rfl,rest⟩ := expect_string ahead
    obtain ⟨tks',lno,run,rest'⟩ := regressOptions_runs _ (s := reached s tks tk.lno s.cf) ended listed rest
    refine ⟨.nop,tks',lno,_,?_,rest',rfl,nop_fine⟩
    simp only [parse,configParseRegress,got,run]
    rfl
  | canvasStep =>
    cases arg <;> try cases ran
    next name options =>
    obtain ⟨tk,tks,got,rfl,rest⟩ := expect_string ahead
    obtain ⟨⟨⟨command,parallel⟩,mid⟩,read⟩ : ∃ out,
      options.foldl (StepOption.run host) (([],false),s.cf) = out := ⟨_,rfl⟩
    simp only [Argument.run,read,addStep,Option.ite_none_left_eq_some] at ran
    obtain ⟨given,added⟩ := ran
    cases added
    obtain ⟨tks',lno,run,rest'⟩ := canvasOptions_runs options (s := reached s tks tk.lno s.cf) ended read rest
    refine ⟨.nop,tks',lno,_,?_,rest',rfl,nop_fine⟩
    simp only [parse,configParseCanvasStep,got,run,if_neg given]
    rfl

/-- A statement that can be run is taken. -/
theorem configParseKeyword_runs {tk : Token TokenType} {arg : Argument} {s : ParseState} {cf : Config}
    {ds : List Datum} (ended : Ended ds) (ran : Statement.run host s.cf ⟨tk.str,arg⟩ = some cf)
    (ahead : s.lx.pending.map datum = arg.data ++ ds) :
    ∃ out tks lno, configParseKeyword host tk s = (out,reached s tks lno cf) ∧ tks.map datum = ds ∧
      out ≠ .error ∧ out ≠ .fatal := by
  unfold Statement.run at ran
  split at ran
  · cases ran
  · next gr fn found =>
    simp only [Option.ite_none_left_eq_some] at ran
    obtain ⟨once,ran⟩ := ran
    obtain ⟨out,tks,lno,cf',run,rest,settled,sound,alive⟩ := parse_runs ended ran ahead
    refine ⟨out,tks,lno,?_,rest,sound,alive⟩
    simp only [configParseKeyword,found,run,once,Bool.false_eq_true,↓reduceIte]
    cases out with
    | append val => exact congrArg (Prod.mk _) (by rw [← settled]; rfl)
    | nop => exact congrArg (Prod.mk _) (by rw [← settled]; rfl)
    | error => exact absurd rfl sound
    | fatal => exact absurd rfl alive

theorem ended_statements (sts : List Statement) {ds : List Datum} (ended : Ended ds) :
    Ended (sts.flatMap Statement.data ++ ds) := by
  cases sts with
  | nil => exact ended
  | cons st sts =>
    intro d head
    cases head
    exact ⟨st.kw,rfl⟩

/-- A statement that can be run is taken with its keyword. -/
theorem statement_taken {st : Statement} {s : ParseState} {cf : Config} {ds : List Datum} (ended : Ended ds)
    (ran : st.run host s.cf = some cf) (ahead : s.lx.pending.map datum = st.data ++ ds) :
    ∃ tk s' out tks lno, lexerPeekEof s.lx = false ∧ s.expect .keyword = (some tk,s') ∧
      configParseKeyword host tk s' = (out,reached s tks lno cf) ∧ tks.map datum = ds ∧
        out ≠ .error ∧ out ≠ .fatal := by
  rw [Statement.data,List.cons_append] at ahead
  obtain ⟨tk,tks,got,meant,rest⟩ := expect_runs ahead fun tk meant => (datum_keyword meant).1
  obtain ⟨_,_,pending,_,_⟩ := pending_cons ahead
  have same : (⟨tk.str,st.arg⟩ : Statement) = st := by rw [(datum_keyword meant).2]
  obtain ⟨out,tks',lno,run,rest',sound,alive⟩ :=
    configParseKeyword_runs (s := reached s tks tk.lno s.cf) ended (same ▸ ran) rest
  exact ⟨tk,_,out,tks',lno,by simp [lexerPeekEof,pending],got,run,rest',sound,alive⟩

/-- Statements that can be run are taken one after the other, without an error. -/
theorem configParseLoop_runs : ∀ (sts : List Statement) {s : ParseState} {cf : Config}, runAll host sts s.cf = some cf →
    s.lx.pending.map datum = sts.flatMap Statement.data → ∃ lno, configParseLoop host s = (false,reached s [] lno cf)
  | [],s,cf,ran,ahead => by
    cases ran
    have none : s.lx.pending = [] := List.map_eq_nil_iff.mp ahead
    refine ⟨s.last,?_⟩
    rw [configParseLoop_eq,if_pos (by rw [lexerPeekEof,none]; rfl),reached,past,← none]
  | st :: sts,s,cf,ran,ahead => by
    rw [runAll,List.foldlM_cons] at ran
    obtain ⟨mid,first,later⟩ := Option.bind_eq_some_iff.mp ran
    have ended := @ended_statements sts [] fun d impossible => by cases impossible
    rw [List.append_nil] at ended
    obtain ⟨tk,s',out,tks,lno,more,got,run,rest,sound,alive⟩ := statement_taken ended first ahead
    obtain ⟨lno',run'⟩ := configParseLoop_runs sts (s := reached s tks lno mid) later rest
    refine ⟨lno',?_⟩
    rw [configParseLoop_eq,if_neg (by rw [more]; decide),got]
    dsimp only
    rw [run]
    cases out with
    | append val => exact run'
    | nop => exact run'
    | error => exact absurd rfl sound
    | fatal => exact absurd rfl alive

/-! ## Files -/

/-- What the lexer has to complain about. -/
def complaints (mode : Mode) (text : Str) : List (Nat × ConfigLexer.Problem) :=
  match lexerAlloc (configReader mode) ⟨.start text,[]⟩ with
  | .error errors => errors
  | .ok (_,s) => s.errors

/-- A text is accepted exactly if the lexer has no complaint and the statements it
    consists of run and leave no required variable out. -/
theorem configParse_iff {text : Str} {cf cf' : Config} : configParse host text cf = .ok cf' ↔
    complaints cf.mode text = [] ∧ ∃ sts final, Written cf.mode text sts ∧ runAll host sts cf = some final ∧
      missing final = [] ∧ cf' = afterParse final := by
  constructor
  · intro accepted
    refine ⟨?_,configParse_runs accepted⟩
    obtain ⟨sts,final,written,ran,_,_⟩ := configParse_runs accepted
    unfold configParse at accepted
    unfold Written tokens at written
    unfold complaints
    cases lexed : lexerAlloc (configReader cf.mode) ⟨.start text,[]⟩ with
    | error errors =>
      rw [lexed] at accepted
      cases accepted
    | ok out =>
      obtain ⟨lx,s⟩ := out
      rw [lexed] at accepted written
      dsimp only
      obtain ⟨lno,run⟩ := (@configParseLoop_runs host) sts
        (s := { cf := cf, lx := lx, log := s.errors.map fun e => (e.1,.lexical e.2), err := s.errors.length })
          ran (Option.some.inj written)
      by_contra some
      dsimp only at accepted
      rw [configParseInner,run] at accepted
      dsimp only at accepted
      rw [reached_err,if_pos (List.length_pos_iff.mpr (show s.errors ≠ [] from some))] at accepted
      cases accepted
  · rintro ⟨quiet,sts,final,written,ran,complete,rfl⟩
    unfold complaints at quiet
    unfold Written tokens at written
    cases lexed : lexerAlloc (configReader cf.mode) ⟨.start text,[]⟩ with
    | error errors => rw [lexed] at written; cases written
    | ok out =>
      obtain ⟨lx,s⟩ := out
      rw [lexed] at quiet written
      dsimp only at quiet
      obtain ⟨lno,run⟩ := (@configParseLoop_runs host) sts
        (s := { cf := cf, lx := lx, log := s.errors.map fun e => (e.1,.lexical e.2), err := s.errors.length })
          ran (Option.some.inj written)
      rw [configParse,lexed]
      dsimp only
      rw [configParseInner,run]
      dsimp only
      rw [if_neg (by rw [reached_err,quiet]; exact Nat.lt_irrefl 0),
        if_neg (by rw [reached_cf,complete]; exact fun other => other rfl)]
      rfl

end Robsd.Acceptance
