import Robsd.RegressParse

/-!
Configurations of all modes in the abstract: the statements a file consists of,
the tokens they are written in and what each does to the configuration, where it
is not rejected. What is parsed is a list of statements that are run in order.
-/
namespace Robsd.Statements
open Robsd.Strings
open Robsd.Lexer
open Robsd.Modes
open Robsd.ConfigLexer (TokenType i32 configReader)
open Robsd.Configuration
open Robsd.ConfigParse
open Robsd.ConfigTokens (configParseStrings_eq)
open Robsd.RegressParse (configParseLoop_eq regressOptions_eq)
open Robsd.Interpolate (interpolateStr)
variable {host : Host}

/-! ## Syntax -/

/-- The options of a `regress` statement. -/
inductive SuiteOption where
  | env (xs : List Str)
  | noParallel
  | obj (xs : List Str)
  | packages (xs : List Str)
  | quiet
  | root
  | targets (xs : List Str)
  | timeout (n : Int) (unit : TokenType)
  deriving DecidableEq, Repr

/-- The options of a `step` statement. -/
inductive StepOption where
  | command (xs : List Str)
  | parallel
  deriving DecidableEq, Repr

/-- What follows a keyword. -/
inductive Argument where
  | boolean (n : Int)
  | integer (n : Int)
  | string (str : Str)
  | list (xs : List Str)
  | timeout (n : Int) (unit : TokenType)
  | suite (path : Str) (options : List SuiteOption)
  | step (name : Str) (options : List StepOption)
  deriving DecidableEq, Repr

structure Statement where
  kw : Str
  arg : Argument
  deriving DecidableEq, Repr

/-- What a token says, without its line number. -/
inductive Datum where
  | keyword (kw : Str)
  | string (str : Str)
  | integer (n : Int)
  | boolean (n : Int)
  | other (type : TokenType)
  deriving DecidableEq, Repr

def datum (tk : Token TokenType) : Datum :=
  match tk.type with
  | .keyword => .keyword tk.str
  | .string => .string tk.str
  | .integer => .integer tk.int
  | .boolean => .boolean tk.int
  | type => .other type

/-- A list in braces. -/
def listData (xs : List Str) : List Datum := .other .lbrace :: xs.map .string ++ [.other .rbrace]

def SuiteOption.data : SuiteOption → List Datum
  | .env xs => .other .env :: listData xs
  | .noParallel => [.other .noParallel]
  | .obj xs => .other .obj :: listData xs
  | .packages xs => .other .packages :: listData xs
  | .quiet => [.other .quiet]
  | .root => [.other .root]
  | .targets xs => .other .targets :: listData xs
  | .timeout n unit => [.other .timeout,.integer n,.other unit]

def StepOption.data : StepOption → List Datum
  | .command xs => .other .command :: listData xs
  | .parallel => [.other .parallel]

def Argument.data : Argument → List Datum
  | .boolean n => [.boolean n]
  | .integer n => [.integer n]
  | .string str => [.string str]
  | .list xs => listData xs
  | .timeout n unit => [.integer n,.other unit]
  | .suite path options => .string path :: options.flatMap SuiteOption.data
  | .step name options => .string name :: options.flatMap StepOption.data

def Statement.data (st : Statement) : List Datum := .keyword st.kw :: st.arg.data

/-! ## Meaning -/

/-- The seconds of a timeout, unless there are too many. -/
def seconds (host : Host) (n : Int) (unit : TokenType) : Option Int :=
  (scalar unit).bind fun scalar => if i32 (scalar*host.i64 n) = scalar*host.i64 n
    then some (scalar*host.i64 n) else none

/-- The environment of a suite is appended, and its early interpolation takes its place. -/
def runEnv (host : Host) (path : Str) (xs : List Str) (cf : Config) : Option Config :=
  let name := regressname path "env".toList
  match configInterpolateEarly host (reference name)
    (configAppend cf name (.list (reference "regress-env".toList :: xs))) with
  | (none,_) => none
  | (some str,cf') => some { cf' with vars := cf'.vars.set cf.vars.length (name,.string str) }

def SuiteOption.run (host : Host) (path : Str) (cf : Config) : SuiteOption → Option Config
  | .env xs => runEnv host path xs cf
  | .noParallel => some (configAppend cf (regressname path "parallel".toList) (.integer 0))
  | .obj xs => some (configConcat cf "regress-obj".toList xs)
  | .packages xs => some (configConcat cf "regress-packages".toList xs)
  | .quiet => some (configAppend cf (regressname path "quiet".toList) (.integer 1))
  | .root => some (configAppend cf (regressname path "root".toList) (.integer 1))
  | .targets xs => some (configConcat cf (regressname path "targets".toList) xs)
  | .timeout n unit => (seconds host n unit).map fun n =>
    configAppend cf (regressname path "timeout".toList) (.integer n)

/-- The command and the flag of a step so far, and the configuration, after an option. -/
def StepOption.run (host : Host) (s : (List Str × Bool) × Config) : StepOption → (List Str × Bool) × Config
  | .command xs =>
    let found := if xs = [] then (none,s.2) else configFind host "env".toList s.2
    ((commandWithEnv found.1 xs,s.1.2),found.2)
  | .parallel => ((s.1.1,true),s.2)

/-- A path is interpolated to see that it is a directory. -/
def runDirectory (host : Host) (path : Str) (cf : Config) : Option Config :=
  if path = [] then none
  else match interpolateStr (configInterpolateLookup host) false path cf with
    | (.ok path,cf) => if host.stat path matches .directory then some cf else none
    | _ => none

/-- A step is added to those of the canvas. -/
def addStep (name : Str) (s : (List Str × Bool) × Config) : Option Config :=
  if s.1.1 = [] then none
  else
    let cf := if s.2.canvasSteps = [] then configAppend s.2 "step".toList .invalid else s.2
    some { cf with canvasSteps := cf.canvasSteps ++ [⟨name,s.1.1,s.1.2⟩] }

/-- What the function behind a keyword makes of its argument. -/
def Argument.run (host : Host) (kw : Str) (cf : Config) : Parser → Argument → Option Config
  | .boolean,.boolean n => some (configAppend cf kw (.integer (if n = 0 then 0 else 1)))
  | .integer,.integer n => some (configAppend cf kw (.integer (host.i64 n)))
  | .string,.string str => some (configAppend cf kw (.string str))
  | .list,.list xs => some (configAppend cf kw (.list xs))
  | .user,.string str => if host.user str then some (configAppend cf kw (.string str)) else none
  | .glob,.string str =>
    match host.glob str with
    | .noMatch => some cf
    | .failed _ => none
    | .paths xs => some (configAppend cf kw (.list xs))
  | .timeout,.timeout n unit => (seconds host n unit).map fun n => configAppend cf kw (.integer n)
  | .directory,.string str => (runDirectory host str cf).map fun cf => configAppend cf kw (.string str)
  | .canvasDirectory,.string str =>
    (runDirectory host str cf).map fun cf =>
      configAppend (configAppend cf "canvas-dir".toList (.string str)) "robsddir".toList (.string str)
  | .regressEnv,.list xs => some (configConcat cf "regress-env".toList xs)
  | .regress,.suite path options =>
    (options.foldlM (SuiteOption.run host path) cf).map fun cf => configConcat cf "regress".toList [path]
  | .canvasStep,.step name options => addStep name (options.foldl (StepOption.run host) (([],false),cf))
  | _,_ => none

/-- A statement is rejected where its keyword is unknown or given already. -/
def Statement.run (host : Host) (cf : Config) (st : Statement) : Option Config :=
  match configFindGrammarForKeyword cf.mode st.kw with
  | none => none
  | some (gr,fn) => if !gr.flags.rep && configPresent cf st.kw then none else st.arg.run host st.kw cf fn

/-- The statements of a file are run in order. -/
def runAll (host : Host) (sts : List Statement) (cf : Config) : Option Config := sts.foldlM (Statement.run host) cf

/-! ## What is taken -/

/-- The first state is ahead of the second one by some tokens. -/
def Takes (s s' : ParseState) (ds : List Datum) : Prop := s.lx.pending.map datum = ds ++ s'.lx.pending.map datum

theorem Takes.trans {s s' s'' : ParseState} {ds ds' : List Datum} (first : Takes s s' ds) (second : Takes s' s'' ds') :
    Takes s s'' (ds ++ ds') := by
  unfold Takes at *
  rw [first,second,List.append_assoc]

theorem expect_takes {type : TokenType} {s s' : ParseState} {tk : Token TokenType}
    (run : s.expect type = (some tk,s')) :
    s.lx.pending = tk :: s'.lx.pending ∧ tk.type = type ∧ s'.cf = s.cf := by
  unfold ParseState.expect lexerExpect at run
  cases pending : s.lx.pending with
  | nil => simp [pending] at run
  | cons t ts =>
    by_cases same : t.type = type
    · simp only [pending,same,↓reduceIte,Prod.mk.injEq,Option.some.injEq] at run
      obtain ⟨rfl,rfl⟩ := run
      exact ⟨rfl,same,rfl⟩
    · simp [pending,same] at run

theorem takes_one {s s' : ParseState} {tk : Token TokenType} (pending : s.lx.pending = tk :: s'.lx.pending) :
    Takes s s' [datum tk] := by
  simp [Takes,pending]

theorem expect_string {s s' : ParseState} {tk : Token TokenType} (run : s.expect .string = (some tk,s')) :
    Takes s s' [.string tk.str] ∧ s'.cf = s.cf := by
  obtain ⟨pending,type,cf⟩ := expect_takes run
  have taken := takes_one pending
  simp only [datum,type] at taken
  exact ⟨taken,cf⟩

theorem expect_integer {s s' : ParseState} {tk : Token TokenType} (run : s.expect .integer = (some tk,s')) :
    Takes s s' [.integer tk.int] ∧ s'.cf = s.cf := by
  obtain ⟨pending,type,cf⟩ := expect_takes run
  have taken := takes_one pending
  simp only [datum,type] at taken
  exact ⟨taken,cf⟩

/-- A token that is seen is the one that is taken. -/
theorem peek_takes {s : ParseState} {type : TokenType} (seen : s.peek = some type) :
    ∃ tk, tk.type = type ∧ Takes s s.advance [datum tk] ∧ s.advance.cf = s.cf := by
  unfold ParseState.peek at seen
  unfold ParseState.advance Takes
  cases pending : s.lx.pending with
  | nil => simp [pending] at seen
  | cons tk tks =>
    rw [pending] at seen
    exact ⟨tk,Option.some.inj seen,by simp,rfl⟩

theorem peek_other {s : ParseState} {type : TokenType} (seen : s.peek = some type)
    (plain : type ∉ [TokenType.keyword,.string,.integer,.boolean]) :
    Takes s s.advance [.other type] ∧ s.advance.cf = s.cf := by
  obtain ⟨tk,rfl,taken,cf⟩ := peek_takes seen
  have shown : datum tk = .other tk.type := by
    unfold datum
    split <;> simp_all
  rw [shown] at taken
  exact ⟨taken,cf⟩

/-! ## Inversion -/

theorem configParseStrings_takes {xs : List Str} {s s' : ParseState} {val : Value}
    (run : configParseStrings xs s = (.append val,s')) :
    ∃ ys, val = .list (xs ++ ys) ∧ Takes s s' (ys.map .string ++ [.other .rbrace]) ∧ s'.cf = s.cf := by
  induction size : s.ahead using Nat.strongRecOn generalizing xs s with
  | _ n ih =>
    rw [configParseStrings_eq] at run
    split at run
    · next closed =>
      cases run
      obtain ⟨taken,cf⟩ := peek_other closed (by decide)
      exact ⟨[],by simp,taken,cf⟩
    · split at run
      · cases run
      · next tk got =>
        have shorter := ParseState.ahead_expect_lt got
        obtain ⟨first,same⟩ := expect_string (Prod.ext got rfl)
        obtain ⟨ys,rfl,later,cf⟩ := ih _ (size ▸ shorter) run rfl
        exact ⟨tk.str :: ys,by simp,first.trans later,cf.trans same⟩

theorem configParseList_takes {s s' : ParseState} {val : Value} (run : configParseList s = (.append val,s')) :
    ∃ xs, val = .list xs ∧ Takes s s' (listData xs) ∧ s'.cf = s.cf := by
  unfold configParseList at run
  split at run
  · cases run
  · next tk mid opened =>
    obtain ⟨pending,type,same⟩ := expect_takes opened
    have brace := takes_one pending
    simp only [datum,type] at brace
    obtain ⟨xs,rfl,later,cf⟩ := configParseStrings_takes run
    exact ⟨xs,rfl,brace.trans later,cf.trans same⟩

theorem configParseStrings_nop (xs : List Str) (s : ParseState) : (configParseStrings xs s).1 ≠ .nop := by
  induction size : s.ahead using Nat.strongRecOn generalizing xs s with
  | _ n ih =>
    rw [configParseStrings_eq]
    split
    · intro impossible
      cases impossible
    · split
      · intro impossible
        cases impossible
      · next tk got => exact ih _ (size ▸ ParseState.ahead_expect_lt got) _ _ rfl

theorem configParseList_nop (s : ParseState) : (configParseList s).1 ≠ .nop := by
  unfold configParseList
  split
  · intro impossible
    cases impossible
  · exact configParseStrings_nop _ _

theorem configParseTimeout_takes {s s' : ParseState} {out : ConfigResult} (run : configParseTimeout host s = (out,s'))
    (fine : out ≠ .error) :
    ∃ n unit m, seconds host n unit = some m ∧ out = .append (.integer m) ∧
      Takes s s' [.integer n,.other unit] ∧ s'.cf = s.cf := by
  unfold configParseTimeout at run
  split at run
  · cases run
    exact absurd rfl fine
  · next tk mid got =>
    obtain ⟨number,same⟩ := expect_integer got
    dsimp only at run
    split at run
    · cases run
      exact absurd rfl fine
    · next factor scaled =>
      obtain ⟨unit,seen,known⟩ := Option.bind_eq_some_iff.mp scaled
      have plain : unit ∉ [TokenType.keyword,.string,.integer,.boolean] := by
        intro member
        simp only [List.mem_cons,List.not_mem_nil,or_false] at member
        rcases member with rfl | rfl | rfl | rfl <;> cases known
      obtain ⟨taken,cf⟩ := peek_other seen plain
      split at run
      · next whole =>
        cases run
        refine ⟨tk.int,unit,factor*host.i64 tk.int,?_,rfl,number.trans taken,cf.trans same⟩
        rw [seconds,known,Option.bind_some,if_pos whole]
      · cases run
        exact absurd rfl fine

theorem configParseDirectory_takes {s s' : ParseState} {out : ConfigResult}
    (run : configParseDirectory host s = (out,s')) (fine : out ≠ .error) :
    ∃ str, out = .append (.string str) ∧ Takes s s' [.string str] ∧ runDirectory host str s.cf = some s'.cf := by
  unfold configParseDirectory at run
  split at run
  · cases run
    exact absurd rfl fine
  · next tk mid got =>
    obtain ⟨string,same⟩ := expect_string got
    split at run
    · cases run
      exact absurd rfl fine
    · next nonempty =>
      split at run
      · cases run
        exact absurd rfl fine
      · next path cf found =>
        dsimp only at run
        split at run
        · cases run
          exact absurd rfl fine
        · cases run
          exact absurd rfl fine
        · next directory =>
          cases run
          refine ⟨tk.str,rfl,string,?_⟩
          rw [runDirectory,if_neg nonempty,← same,found]
          simp only [directory,↓reduceIte]

/-! ## Options -/

theorem optionList_takes {name : Str} {s s' : ParseState} (run : optionList name s = (true,s')) :
    ∃ xs, Takes s s' (listData xs) ∧ s'.cf = configConcat s.cf name xs := by
  unfold optionList at run
  split at run
  · next ys mid listed =>
    cases run
    obtain ⟨xs,same,taken,cf⟩ := configParseList_takes listed
    cases same
    exact ⟨_,taken,by rw [← cf]⟩
  · cases run

theorem optionTimeout_takes {path : Str} {s s' : ParseState} (run : optionTimeout host path s = (true,s')) :
    ∃ n unit, Takes s s' [.integer n,.other unit] ∧ (SuiteOption.timeout n unit).run host path s.cf = some s'.cf := by
  unfold optionTimeout at run
  split at run
  · next val mid timed =>
    cases run
    obtain ⟨n,unit,m,scaled,same,taken,cf⟩ := configParseTimeout_takes timed (fun impossible => by cases impossible)
    cases same
    exact ⟨n,unit,taken,by rw [SuiteOption.run,scaled,← cf]; rfl⟩
  · cases run

theorem optionEnv_takes {path : Str} {s s' : ParseState} (run : configParseRegressOptionEnv host path s = (true,s')) :
    ∃ xs, Takes s s' (listData xs) ∧ runEnv host path xs s.cf = some s'.cf := by
  unfold configParseRegressOptionEnv at run
  split at run
  · next ys mid listed =>
    obtain ⟨xs,same,taken,cf⟩ := configParseList_takes listed
    cases same
    dsimp only at run
    split at run
    · cases run
    · next str final early =>
      cases run
      refine ⟨ys,taken,?_⟩
      rw [runEnv,← cf,early]
  · cases run

/-- An option that is read is one of a suite. -/
theorem regressOption_takes {path : Str} {s s' : ParseState} (run : regressOption host path s = some (true,s')) :
    ∃ option : SuiteOption, Takes s s' option.data ∧ option.run host path s.cf = some s'.cf := by
  unfold regressOption at run
  split at run
  · next seen =>
    obtain ⟨taken,same⟩ := peek_other seen (by decide)
    obtain ⟨xs,later,ran⟩ := optionEnv_takes (Option.some.inj run)
    exact ⟨.env xs,taken.trans later,same ▸ ran⟩
  · next seen =>
    obtain ⟨taken,same⟩ := peek_other seen (by decide)
    cases run
    exact ⟨.noParallel,taken,by rw [SuiteOption.run,← same]⟩
  · next seen =>
    obtain ⟨taken,same⟩ := peek_other seen (by decide)
    obtain ⟨xs,later,cf⟩ := optionList_takes (Option.some.inj run)
    exact ⟨.obj xs,taken.trans later,by rw [SuiteOption.run,cf,same]⟩
  · next seen =>
    obtain ⟨taken,same⟩ := peek_other seen (by decide)
    obtain ⟨xs,later,cf⟩ := optionList_takes (Option.some.inj run)
    exact ⟨.packages xs,taken.trans later,by rw [SuiteOption.run,cf,same]⟩
  · next seen =>
    obtain ⟨taken,same⟩ := peek_other seen (by decide)
    cases run
    exact ⟨.quiet,taken,by rw [SuiteOption.run,← same]⟩
  · next seen =>
    obtain ⟨taken,same⟩ := peek_other seen (by decide)
    cases run
    exact ⟨.root,taken,by rw [SuiteOption.run,← same]⟩
  · next seen =>
    obtain ⟨taken,same⟩ := peek_other seen (by decide)
    obtain ⟨xs,later,cf⟩ := optionList_takes (Option.some.inj run)
    exact ⟨.targets xs,taken.trans later,by rw [SuiteOption.run,cf,same]⟩
  · next seen =>
    obtain ⟨taken,same⟩ := peek_other seen (by decide)
    obtain ⟨n,unit,later,ran⟩ := optionTimeout_takes (Option.some.inj run)
    exact ⟨.timeout n unit,taken.trans later,same ▸ ran⟩
  · cases run

theorem regressOptions_takes {path : Str} {s s' : ParseState} (run : regressOptions host path s = (true,s')) :
    ∃ options : List SuiteOption, Takes s s' (options.flatMap SuiteOption.data) ∧
      options.foldlM (SuiteOption.run host path) s.cf = some s'.cf := by
  induction size : s.ahead using Nat.strongRecOn generalizing s with
  | _ n ih =>
    rw [regressOptions_eq] at run
    split at run
    · cases run
      exact ⟨[],rfl,rfl⟩
    · cases run
    · next mid option =>
      obtain ⟨o,first,ran⟩ := regressOption_takes option
      obtain ⟨os,later,runs⟩ := ih mid.ahead (size ▸ regressOption_ahead option) run rfl
      exact ⟨o :: os,first.trans later,by simp only [List.foldlM_cons,ran]; exact runs⟩

theorem canvasOption_takes {command command' : List Str} {parallel parallel' : Bool} {s s' : ParseState}
    (run : canvasOption host command parallel s = some (some (command',parallel'),s')) :
    ∃ option : StepOption, Takes s s' option.data ∧
      option.run host ((command,parallel),s.cf) = ((command',parallel'),s'.cf) := by
  unfold canvasOption at run
  split at run
  · next seen =>
    obtain ⟨taken,same⟩ := peek_other seen (by decide)
    split at run
    · next ys mid listed =>
      obtain ⟨xs,same',later,cf⟩ := configParseList_takes listed
      cases same'
      cases run
      exact ⟨.command ys,taken.trans later,by simp only [StepOption.run,cf,same]⟩
    · cases run
  · next seen =>
    obtain ⟨taken,same⟩ := peek_other seen (by decide)
    cases run
    exact ⟨.parallel,taken,by rw [StepOption.run,same]⟩
  · cases run

theorem canvasOptions_eq (command : List Str) (parallel : Bool) (s : ParseState) :
    canvasOptions host command parallel s =
    match canvasOption host command parallel s with
    | none => (some (command,parallel),s)
    | some (none,s') => (none,s')
    | some (some (command,parallel),s') => canvasOptions host command parallel s' := by
  rw [canvasOptions]
  split <;> simp_all

theorem canvasOptions_takes {command command' : List Str} {parallel parallel' : Bool} {s s' : ParseState}
    (run : canvasOptions host command parallel s = (some (command',parallel'),s')) :
    ∃ options : List StepOption, Takes s s' (options.flatMap StepOption.data) ∧
      options.foldl (StepOption.run host) ((command,parallel),s.cf) = ((command',parallel'),s'.cf) := by
  induction size : s.ahead using Nat.strongRecOn generalizing command parallel s with
  | _ n ih =>
    rw [canvasOptions_eq] at run
    split at run
    · cases run
      exact ⟨[],rfl,rfl⟩
    · cases run
    · next mid option =>
      obtain ⟨o,first,ran⟩ := canvasOption_takes option
      obtain ⟨os,later,runs⟩ := ih mid.ahead (size ▸ canvasOption_ahead option) run rfl
      exact ⟨o :: os,first.trans later,by rw [List.foldl_cons,ran]; exact runs⟩

/-! ## Statements -/

/-- The configuration after what a function returns for a keyword. -/
def ConfigResult.settle (kw : Str) (cf : Config) : ConfigResult → Config
  | .append val => configAppend cf kw val
  | _ => cf

/-- A function has taken an argument and done what the argument says. -/
def TakesArgument (host : Host) (fn : Parser) (s s' : ParseState) (out : ConfigResult) : Prop :=
  ∃ arg : Argument, Takes s s' arg.data ∧ ∀ kw, arg.run host kw s.cf fn = some (ConfigResult.settle kw s'.cf out)

theorem configParseBoolean_takes {s s' : ParseState} {out : ConfigResult} (run : configParseBoolean s = (out,s'))
    (sound : out ≠ .error) : TakesArgument host .boolean s s' out := by
  unfold configParseBoolean at run
  split at run
  · cases run
    exact absurd rfl sound
  · next tk mid got =>
    cases run
    obtain ⟨pending,type,same⟩ := expect_takes got
    have taken := takes_one pending
    simp only [datum,type] at taken
    exact ⟨.boolean tk.int,taken,fun kw => by rw [← same]; rfl⟩

theorem configParseInteger_takes {s s' : ParseState} {out : ConfigResult} (run : configParseInteger host s = (out,s'))
    (sound : out ≠ .error) : TakesArgument host .integer s s' out := by
  unfold configParseInteger at run
  split at run
  · cases run
    exact absurd rfl sound
  · next tk mid got =>
    cases run
    obtain ⟨taken,same⟩ := expect_integer got
    exact ⟨.integer tk.int,taken,fun kw => by rw [← same]; rfl⟩

theorem configParseString_takes {s s' : ParseState} {out : ConfigResult} (run : configParseString s = (out,s'))
    (sound : out ≠ .error) : TakesArgument host .string s s' out := by
  unfold configParseString at run
  split at run
  · cases run
    exact absurd rfl sound
  · next tk mid got =>
    cases run
    obtain ⟨taken,same⟩ := expect_string got
    exact ⟨.string tk.str,taken,fun kw => by rw [← same]; rfl⟩

theorem configParseUser_takes {s s' : ParseState} {out : ConfigResult} (run : configParseUser host s = (out,s'))
    (sound : out ≠ .error) : TakesArgument host .user s s' out := by
  unfold configParseUser at run
  split at run
  · cases run
    exact absurd rfl sound
  · next tk mid got =>
    obtain ⟨taken,same⟩ := expect_string got
    split at run
    · next known =>
      cases run
      exact ⟨.string tk.str,taken,fun kw => by rw [Argument.run,if_pos known,← same]; rfl⟩
    · cases run
      exact absurd rfl sound

theorem configParseGlob_takes {s s' : ParseState} {out : ConfigResult} (run : configParseGlob host s = (out,s'))
    (sound : out ≠ .error) (alive : out ≠ .fatal) : TakesArgument host .glob s s' out := by
  unfold configParseGlob at run
  split at run
  · cases run
    exact absurd rfl sound
  · next tk mid got =>
    obtain ⟨taken,same⟩ := expect_string got
    cases found : host.glob tk.str with
    | noMatch =>
      rw [found] at run
      cases run
      exact ⟨.string tk.str,taken,fun kw => by simp only [Argument.run,found,← same]; rfl⟩
    | failed reason =>
      rw [found] at run
      cases run
      exact absurd rfl alive
    | paths xs =>
      rw [found] at run
      cases run
      exact ⟨.string tk.str,taken,fun kw => by simp only [Argument.run,found,← same]; rfl⟩

theorem configParseCanvasDirectory_takes {s s' : ParseState} {out : ConfigResult}
    (run : configParseCanvasDirectory host s = (out,s')) (sound : out ≠ .error) :
    TakesArgument host .canvasDirectory s s' out := by
  unfold configParseCanvasDirectory at run
  split at run
  · next val mid found =>
    cases run
    obtain ⟨str,same,taken,ran⟩ := configParseDirectory_takes found (fun impossible => by cases impossible)
    cases same
    exact ⟨.string str,taken,fun kw => by rw [Argument.run,ran]; rfl⟩
  · next other =>
    obtain ⟨str,rfl,_,_⟩ := configParseDirectory_takes run sound
    exact absurd run (other _ _)

theorem configParseRegressEnv_takes {s s' : ParseState} {out : ConfigResult} (run : configParseRegressEnv s = (out,s'))
    (sound : out ≠ .error) : TakesArgument host .regressEnv s s' out := by
  unfold configParseRegressEnv at run
  split at run
  · next ys mid listed =>
    cases run
    obtain ⟨xs,same,taken,cf⟩ := configParseList_takes listed
    cases same
    exact ⟨.list ys,taken,fun kw => by rw [← cf]; rfl⟩
  · cases run
    exact absurd rfl sound

theorem configParseRegress_takes {s s' : ParseState} {out : ConfigResult} (run : configParseRegress host s = (out,s'))
    (sound : out ≠ .error) : TakesArgument host .regress s s' out := by
  unfold configParseRegress at run
  split at run
  · cases run
    exact absurd rfl sound
  · next tk mid got =>
    obtain ⟨taken,same⟩ := expect_string got
    split at run
    · cases run
      exact absurd rfl sound
    · next ended =>
      cases run
      obtain ⟨options,later,ran⟩ := regressOptions_takes ended
      exact ⟨.suite tk.str options,taken.trans later,fun kw => by rw [Argument.run,← same,ran]; rfl⟩

theorem configParseCanvasStep_takes {s s' : ParseState} {out : ConfigResult}
    (run : configParseCanvasStep host s = (out,s')) (sound : out ≠ .error) :
    TakesArgument host .canvasStep s s' out := by
  unfold configParseCanvasStep at run
  split at run
  · cases run
    exact absurd rfl sound
  · next tk mid got =>
    obtain ⟨taken,same⟩ := expect_string got
    split at run
    · cases run
      exact absurd rfl sound
    · next command parallel final ended =>
      split at run
      · cases run
        exact absurd rfl sound
      · next given =>
        cases run
        obtain ⟨options,later,ran⟩ := canvasOptions_takes ended
        exact ⟨.step tk.str options,taken.trans later,fun kw => by
          rw [Argument.run,← same,ran,addStep,if_neg given]; rfl⟩

/-- A function that does not fail takes an argument and does what it says. -/
theorem parse_takes {fn : Parser} {s s' : ParseState} {out : ConfigResult} (run : parse host fn s = (out,s'))
    (fine : out ≠ .error ∧ out ≠ .fatal) :
    TakesArgument host fn s s' out := by
  obtain ⟨sound,alive⟩ := fine
  cases fn with
  | boolean => exact configParseBoolean_takes run sound
  | integer => exact configParseInteger_takes run sound
  | string => exact configParseString_takes run sound
  | user => exact configParseUser_takes run sound
  | glob => exact configParseGlob_takes run sound alive
  | list =>
    change configParseList s = _ at run
    cases out with
    | append val =>
      obtain ⟨xs,rfl,taken,same⟩ := configParseList_takes run
      exact ⟨.list xs,taken,fun kw => by rw [← same]; rfl⟩
    | nop => exact absurd (congrArg Prod.fst run) (configParseList_nop s)
    | error => exact absurd rfl sound
    | fatal => exact absurd rfl alive
  | timeout =>
    obtain ⟨n,unit,m,scaled,rfl,taken,same⟩ := configParseTimeout_takes run sound
    exact ⟨.timeout n unit,taken,fun kw => by rw [Argument.run,scaled,← same]; rfl⟩
  | directory =>
    obtain ⟨str,rfl,taken,ran⟩ := configParseDirectory_takes run sound
    exact ⟨.string str,taken,fun kw => by rw [Argument.run,ran]; rfl⟩
  | canvasDirectory => exact configParseCanvasDirectory_takes run sound
  | regressEnv => exact configParseRegressEnv_takes run sound
  | regress => exact configParseRegress_takes run sound
  | canvasStep => exact configParseCanvasStep_takes run sound

/-- A keyword that is not rejected starts a statement. -/
theorem configParseKeyword_takes {tk : Token TokenType} {s s' : ParseState} {out : ConfigResult}
    (run : configParseKeyword host tk s = (out,s')) (fine : out ≠ .error ∧ out ≠ .fatal) :
    ∃ arg : Argument, Takes s s' arg.data ∧ Statement.run host s.cf ⟨tk.str,arg⟩ = some s'.cf := by
  unfold configParseKeyword at run
  split at run
  · cases run
    exact absurd rfl fine.2
  · next gr fn found =>
    obtain ⟨result,mid,parsed⟩ : ∃ result mid, parse host fn s = (result,mid) := ⟨_,_,rfl⟩
    simp only [parsed] at run
    split at run
    · cases run
      exact absurd rfl fine.1
    · next once =>
      obtain ⟨rfl,rfl⟩ := Prod.mk.inj run
      obtain ⟨arg,taken,ran⟩ := parse_takes parsed fine
      refine ⟨arg,?_,?_⟩
      · cases result <;> exact taken
      · simp only [Statement.run,found,if_neg once,ran]
        cases result <;> rfl

/-- The loop ends without an error after statements that it ran. -/
theorem configParseLoop_takes {s s' : ParseState} (run : configParseLoop host s = (false,s')) :
    ∃ sts : List Statement, s.lx.pending.map datum = sts.flatMap Statement.data ∧
      runAll host sts s.cf = some s'.cf := by
  induction size : s.ahead using Nat.strongRecOn generalizing s with
  | _ n ih =>
    rw [configParseLoop_eq] at run
    split at run
    · next ended =>
      cases run
      rw [lexerPeekEof,List.isEmpty_iff] at ended
      exact ⟨[],by rw [ended]; rfl,rfl⟩
    · split at run
      · cases run
      · next tk got =>
        obtain ⟨pending,type,same⟩ := expect_takes (Prod.ext got rfl)
        have keyword := takes_one pending
        simp only [datum,type] at keyword
        have shorter := ParseState.ahead_expect_lt got
        have behind := configParseKeyword_ahead host tk (s.expect .keyword).2
        dsimp only at run
        split at run
        · cases run
        · cases run
        · next alive sound =>
          obtain ⟨arg,taken,ran⟩ := @configParseKeyword_takes host tk (s.expect .keyword).2
            (configParseKeyword host tk (s.expect .keyword).2).2 _ rfl ⟨sound,alive⟩
          obtain ⟨sts,later,runs⟩ := ih _ (by omega) run rfl
          refine ⟨⟨tk.str,arg⟩ :: sts,?_,?_⟩
          · rw [keyword,taken,later]
            rfl
          · rw [runAll,List.foldlM_cons,← same,ran]
            exact runs

/-! ## Files -/

/-- What the tokens of a text say. -/
def tokens (mode : Mode) (text : Str) : Option (List Datum) :=
  match lexerAlloc (configReader mode) ⟨.start text,[]⟩ with
  | .error _ => none
  | .ok (lx,_) => some (lx.pending.map datum)

/-- A text consists of statements. -/
def Written (mode : Mode) (text : Str) (sts : List Statement) : Prop :=
  tokens mode text = some (sts.flatMap Statement.data)

instance (mode : Mode) (text : Str) (sts : List Statement) : Decidable (Written mode text sts) :=
  inferInstanceAs (Decidable (_ = _))

/-- An accepted text consists of statements that can be run and leave no required variable out. -/
theorem configParse_runs {text : Str} {cf cf' : Config} (accepted : configParse host text cf = .ok cf') :
    ∃ sts final, Written cf.mode text sts ∧ runAll host sts cf = some final ∧ missing final = [] ∧
      cf' = afterParse final := by
  unfold configParse at accepted
  split at accepted
  · cases accepted
  · next lx s lexed =>
    dsimp only at accepted
    split at accepted
    · cases accepted
    · next final inner =>
      cases accepted
      unfold configParseInner at inner
      dsimp only at inner
      split at inner
      · cases inner
      · split at inner
        · cases inner
        · next complete =>
          obtain ⟨sts,data,ran⟩ := configParseLoop_takes inner
          rw [inner] at complete
          refine ⟨sts,final.cf,?_,ran,of_not_not complete,rfl⟩
          rw [Written,tokens,lexed]
          exact congrArg some data

end Robsd.Statements
