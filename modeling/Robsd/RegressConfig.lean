import Mathlib.Data.List.Find
import Robsd.ConfigTokens

/-!
Configurations of robsd-regress in the abstract: statements that name suites
with their options and statements that give other variables. The lexemes they
are written in, what each does to the variables, and the names a suite's
variables go by, which neither meet each other nor a keyword.
-/
namespace Robsd.RegressConfig
open Robsd.Strings
open Robsd.Modes
open Robsd.Bindings
open Robsd.Fnmatch
open Robsd.ConfigLayout
open Robsd.Configuration
open Robsd.ConfigParse (regressDash regressname)
open Robsd.ConfigTokens (braces TimeUnit)

/-- What follows a keyword. -/
inductive Argument where
  | boolean (b : Bool)
  | string (str : Str)
  | integer (n : Nat)
  | list (xs : List Str)
  | timeout (n : Nat) (u : TimeUnit)
  deriving DecidableEq, Repr

/-- The options of a suite. -/
inductive SuiteOption where
  | noParallel
  | quiet
  | root
  | obj (xs : List Str)
  | packages (xs : List Str)
  | targets (xs : List Str)
  | timeout (n : Nat) (u : TimeUnit)
  deriving DecidableEq, Repr

inductive Statement where
  | suite (name : Str) (options : List SuiteOption)
  | global (kw : Str) (arg : Argument)
  deriving DecidableEq, Repr

/-! ## Text -/

def Argument.lexemes : Argument → List Lexeme
  | .boolean b => [.word (if b then "yes".toList else "no".toList)]
  | .string str => [.string str]
  | .integer n => [number n]
  | .list xs => braces xs
  | .timeout n u => [number n,.word u.word]

def SuiteOption.lexemes : SuiteOption → List Lexeme
  | .noParallel => [.word "no-parallel".toList]
  | .quiet => [.word "quiet".toList]
  | .root => [.word "root".toList]
  | .obj xs => .word "obj".toList :: braces xs
  | .packages xs => .word "packages".toList :: braces xs
  | .targets xs => .word "targets".toList :: braces xs
  | .timeout n u => [.word "timeout".toList,number n,.word u.word]

def Statement.lexemes : Statement → List Lexeme
  | .suite name options => .word "regress".toList :: .string name :: options.flatMap SuiteOption.lexemes
  | .global kw arg => .word kw :: arg.lexemes

/-- An argument is one the function behind the keyword takes: a path names a
    directory and a user exists. -/
def Argument.Suits (host : Host) : Parser → Argument → Prop
  | .boolean,.boolean _ => True
  | .string,.string _ => True
  | .directory,.string str => '$' ∉ str ∧ host.stat str = .directory
  | .user,.string str => host.user str = true
  | .glob,.string _ => True
  | .integer,.integer _ => True
  | .list,.list _ => True
  | .regressEnv,.list _ => True
  | .timeout,.timeout n u => u.scalar*n ≤ intMax
  | _,_ => False

/-- The statements that are parsed without an error by themselves. -/
def Statement.Suits (host : Host) : Statement → Prop
  | .suite _ options => ∀ n u, SuiteOption.timeout n u ∈ options → u.scalar*n ≤ intMax
  | .global kw arg => ∃ gr fn, configFindGrammarForKeyword .robsdRegress kw = some (gr,fn) ∧ arg.Suits host fn

/-- No pattern makes `glob` fail other than by matching nothing. -/
def Statement.Readable (host : Host) : Statement → Prop
  | .suite _ _ => True
  | .global kw (.string str) => ∀ gr, configFindGrammarForKeyword .robsdRegress kw = some (gr,.glob) →
      ∀ reason, host.glob str ≠ .failed reason
  | .global _ _ => True

/-! ## Meaning -/

/-- The suites and their options in the order of the file. -/
def suites (sts : List Statement) : List Str :=
  sts.flatMap fun
    | .suite name _ => [name]
    | .global _ _ => []

def options (sts : List Statement) : List (Str × SuiteOption) :=
  sts.flatMap fun
    | .suite name options => options.map fun o => (name,o)
    | .global _ _ => []

/-- The lists given by a kind of option, of one suite or of all. -/
def objs (sts : List Statement) : List (List Str) :=
  (options sts).filterMap fun
    | (_,.obj xs) => some xs
    | _ => none

def packages (sts : List Statement) : List (List Str) :=
  (options sts).filterMap fun
    | (_,.packages xs) => some xs
    | _ => none

def targets (suite : Str) (sts : List Statement) : List (List Str) :=
  (options sts).filterMap fun
    | (name,.targets xs) => if name = suite then some xs else none
    | _ => none

/-- The timeouts given for a suite, in seconds. -/
def timeouts (suite : Str) (sts : List Statement) : List Nat :=
  (options sts).filterMap fun
    | (name,.timeout n u) => if name = suite then some (u.scalar*n) else none
    | _ => none

/-- The argument of the first statement with a keyword. -/
def given (kw : Str) (sts : List Statement) : Option Argument :=
  sts.findSome? fun
    | .suite _ _ => none
    | .global kw' arg => if kw' = kw then some arg else none

/-- The seconds of a timeout and the number of a boolean. -/
def Argument.seconds : Argument → Nat
  | .timeout n u => u.scalar*n
  | _ => 0

def Argument.flag : Argument → Int
  | .boolean b => if b then 1 else 0
  | _ => 0

/-- The keywords of the statements that must not be repeated. -/
def keywords (sts : List Statement) : List Str :=
  sts.filterMap fun
    | .suite _ _ => none
    | .global kw _ => if kw = "regress-env".toList then none else some kw

/-- The value an argument gives to the variable of its keyword; a pattern without
    a match gives none. -/
def Argument.value (host : Host) (fn : Parser) : Argument → Option Value
  | .boolean b => some (.integer (if b then 1 else 0))
  | .string str =>
    if fn = .glob then
      match host.glob str with
      | .paths xs => some (.list xs)
      | _ => none
    else some (.string str)
  | .integer n => some (.integer n)
  | .list xs => some (.list xs)
  | .timeout n u => some (.integer (u.scalar*n : Nat))

/-- A list grown by another one. -/
def extend (name : Str) (xs : List Str) : Change Str Value := .grow name (.list []) (Value.concat xs)

/-- What an option does to the variables. -/
def SuiteOption.change (name : Str) : SuiteOption → Change Str Value
  | .noParallel => .bind (regressname name "parallel".toList) (.integer 0)
  | .quiet => .bind (regressname name "quiet".toList) (.integer 1)
  | .root => .bind (regressname name "root".toList) (.integer 1)
  | .obj xs => extend "regress-obj".toList xs
  | .packages xs => extend "regress-packages".toList xs
  | .targets xs => extend (regressname name "targets".toList) xs
  | .timeout n u => .bind (regressname name "timeout".toList) (.integer (u.scalar*n : Nat))

/-- What a statement does to the variables. -/
def Statement.changes (host : Host) : Statement → List (Change Str Value)
  | .suite name options => options.map (SuiteOption.change name) ++ [extend "regress".toList [name]]
  | .global kw arg =>
    match configFindGrammarForKeyword .robsdRegress kw,arg with
    | some (_,.regressEnv),.list xs => [extend kw xs]
    | some (_,fn),arg => (arg.value host fn).toList.map (.bind kw)
    | none,_ => []

/-- A configuration that is complete and has no conflicts: it gives `robsddir`
    and a suite and no variable twice; all strings are there and have neither
    quotes nor NUL, and all numbers fit. -/
structure Valid (host : Host) (sts : List Statement) : Prop where
  suits : ∀ st ∈ sts, st.Suits host
  plain : ∀ st ∈ sts, ∀ l ∈ st.lexemes, l.Plain
  once : (keywords sts).Nodup
  robsddir : ∃ arg, .global "robsddir".toList arg ∈ sts
  named : suites sts ≠ []

/-- The values found in a configuration are those the statements give. -/
structure Reads (host : Host) (sts : List Statement) (cf : Config) : Prop where
  regress : (configFind host "regress".toList cf).1 = some (.list (suites sts))
  targets : ∀ suite, (configFind host (regressname suite "targets".toList) cf).1 =
    some (.list (if targets suite sts = [] then ["regress".toList] else (targets suite sts).flatten))
  obj : (configFind host "regress-obj".toList cf).1 = if objs sts = [] then none else some (.list (objs sts).flatten)
  packages : (configFind host "regress-packages".toList cf).1 =
    if packages sts = [] then none else some (.list (packages sts).flatten)
  timeout : ∀ suite, (configFind host (regressname suite "timeout".toList) cf).1 =
    some (.integer ((timeouts suite sts).head?.getD
      ((given "regress-timeout".toList sts).elim 0 Argument.seconds) : Nat))
  parallel : ∀ suite, (configFind host (regressname suite "parallel".toList) cf).1 =
    some (.integer (if (suite,SuiteOption.noParallel) ∈ options sts then 0
      else (given "parallel".toList sts).elim 1 Argument.flag))
  quiet : ∀ suite, (configFind host (regressname suite "quiet".toList) cf).1 =
    if (suite,SuiteOption.quiet) ∈ options sts then some (.integer 1) else none
  root : ∀ suite, (configFind host (regressname suite "root".toList) cf).1 =
    if (suite,SuiteOption.root) ∈ options sts then some (.integer 1) else none
  global : ∀ kw arg gr fn val, .global kw arg ∈ sts → configFindGrammarForKeyword .robsdRegress kw = some (gr,fn) →
    fn ≠ .regressEnv → arg.value host fn = some val → (configFind host kw cf).1 = some val

/-! ## Names -/

/-- The names of two suite variables agree only where the suites and the suffixes do. -/
theorem regressname_inj {p q a b : Str} (noDash : '-' ∉ a) (noDash' : '-' ∉ b) :
    regressname p a = regressname q b ↔ p = q ∧ a = b := by
  constructor
  · intro same
    simp only [regressname,List.append_assoc,List.append_cancel_left_eq] at same
    rcases List.append_eq_append_iff.mp same with ⟨c,split,tail⟩ | ⟨c,split,tail⟩
    · cases c with
      | nil => exact ⟨by simpa using split.symm,by simpa using tail⟩
      | cons x c =>
        simp only [List.cons_append,List.cons.injEq] at tail
        exact absurd (by simp [tail.2]) noDash
    · cases c with
      | nil => exact ⟨by simpa using split,by simpa using tail.symm⟩
      | cons x c =>
        simp only [List.cons_append,List.cons.injEq] at tail
        exact absurd (by simp [tail.2]) noDash'
  · rintro ⟨rfl,rfl⟩
    rfl

/-- Whether a name has the form of a suite variable. -/
def suiteNamed (name : Str) : Bool := regressDash.isPrefixOf name && '-' ∈ name.drop 8

theorem regressname_suiteNamed (p a : Str) : suiteNamed (regressname p a) = true := by
  have width : regressDash.length = 8 := rfl
  have start : regressDash.isPrefixOf (regressDash ++ (p ++ '-' :: a)) = true := by
    rw [List.isPrefixOf_iff_prefix]
    exact List.prefix_append _ _
  have rest : (regressDash ++ (p ++ '-' :: a)).drop 8 = p ++ '-' :: a := List.drop_left' width
  simp only [suiteNamed,regressname,List.append_assoc,start,rest]
  simp

/-- A name of another form belongs to no suite. -/
theorem regressname_ne {p a name : Str} (other : suiteNamed name = false) : regressname p a ≠ name := by
  rintro rfl
  rw [regressname_suiteNamed] at other
  cases other

/-- The keywords that are parsed do not have the form of a suite variable, and
    the words of the lexer do not hide them. -/
theorem keyword_table : ∀ gr ∈ grammar .robsdRegress, gr.fn.isSome →
    suiteNamed gr.kw = false ∧ ConfigLexer.tokenTypeLookup .robsdRegress gr.kw .keyword = .keyword := by decide

theorem keyword_mem {mode : Mode} {kw : Str} {gr : Grammar} {fn : Parser}
    (found : configFindGrammarForKeyword mode kw = some (gr,fn)) :
    gr ∈ grammar mode ∧ gr.fn = some fn ∧ gr.kw = kw := by
  obtain ⟨gr',member,same⟩ := List.exists_of_findSome?_eq_some found
  cases fn' : gr'.fn with
  | none => rw [fn'] at same; cases same
  | some g =>
    simp only [fn',Option.bind_some,Option.ite_none_right_eq_some,Option.some.injEq,Prod.mk.injEq] at same
    obtain ⟨kw,rfl,rfl⟩ := same
    exact ⟨member,fn',kw⟩

/-- The patterns of the grammar are those of suite variables. -/
theorem pattern_table : ∀ gr ∈ grammar .robsdRegress,
    gr.flags.pat = false ∧ suiteNamed gr.kw = false ∨
    gr.flags.pat = true ∧ ∃ suffix ∈ ["env".toList,"targets".toList,"parallel".toList,"timeout".toList],
      gr.kw = regressname ['*'] suffix := by decide +kernel

/-- Which grammar a suite variable falls under depends on its suffix only. -/
theorem configFindGrammarForInterpolation_suite (p : Str) {a : Str} (noDash : '-' ∉ a) :
    configFindGrammarForInterpolation .robsdRegress (regressname p a) =
      (grammar .robsdRegress).find? fun gr => gr.flags.pat && gr.kw = regressname ['*'] a := by
  refine List.find?_congr fun gr member => ?_
  rcases pattern_table gr member with ⟨plain,other⟩ | ⟨pattern,suffix,known,kw⟩
  · simp [grammarEquals,plain,Ne.symm (regressname_ne (p := p) (a := a) other)]
  · have dashless : '-' ∉ suffix ∧ '*' ∉ suffix := by
      revert known
      simp only [List.mem_cons,List.not_mem_nil,or_false]
      rintro (rfl | rfl | rfl | rfl) <;> decide
    have star := (@fnmatch_star regressDash ('-' :: suffix) (regressname p a))
      (by decide) (by simp [dashless.2])
    have shape : regressname ['*'] suffix = regressDash ++ '*' :: '-' :: suffix := by simp [regressname]
    rw [Bool.eq_iff_iff]
    simp only [grammarEquals,pattern,Bool.true_and,Bool.or_eq_true,decide_eq_true_eq,kw]
    rw [regressname_inj dashless.1 noDash,regressname_inj dashless.1 noDash,shape,star]
    constructor
    · rintro (⟨_,rfl⟩ | ⟨middle,same⟩)
      · exact ⟨rfl,rfl⟩
      · have named : regressname p a = regressname middle suffix := by rw [same]; simp [regressname]
        exact ⟨rfl,((regressname_inj noDash dashless.1).mp named).2.symm⟩
    · rintro ⟨_,rfl⟩
      exact .inr ⟨p,by simp [regressname]⟩

end Robsd.RegressConfig
