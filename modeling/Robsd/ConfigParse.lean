import Robsd.ConfigLexer
import Robsd.Configuration

/-!
Parsing of the configuration (conf.c, conf-robsd-regress.c, conf-canvas.c): the
loop over the keywords, the functions that parse what follows them and the
options of the `regress` and `step` statements.
-/
namespace Robsd.ConfigParse
open Robsd.Strings
open Robsd.Lexer
open Robsd.Modes
open Robsd.ConfigLexer (TokenType Problem tokenTypeStr i32 configReader)
open Robsd.Configuration
open Robsd.Interpolate (interpolateStr)

/-- What is logged while a configuration is parsed. -/
inductive Message where
  | lexical (p : Problem)
  | unexpected (u : Unexpected TokenType)
  | unknownKeyword (kw : Str)
  | alreadyDefined (kw : Str)
  | mandatoryMissing (kw : Str)
  | glob (reason : Str)
  | userNotFound (user : Str)
  | unknownTimeoutUnit
  | timeoutTooLarge
  | interpolation (e : Interpolate.Error)
  | stat (path reason : Str)
  | notDirectory (path : Str)
  | commandMissing
  deriving DecidableEq, Repr

/-- The text of a message, behind the path and the line number. -/
def Message.text : Message → String
  | .lexical p => p.text
  | .unexpected u => u.text tokenTypeStr
  | .unknownKeyword kw => "unknown keyword '" ++ String.ofList kw ++ "'"
  | .alreadyDefined kw => "variable '" ++ String.ofList kw ++ "' already defined"
  | .mandatoryMissing kw => "mandatory variable '" ++ String.ofList kw ++ "' missing"
  | .glob reason => "glob: " ++ String.ofList reason
  | .userNotFound user => "user '" ++ String.ofList user ++ "' not found"
  | .unknownTimeoutUnit => "unknown timeout unit"
  | .timeoutTooLarge => "timeout too large"
  | .interpolation e => e.text
  | .stat path reason => String.ofList path ++ ": " ++ String.ofList reason
  | .notDirectory path => String.ofList path ++ ": is not a directory"
  | .commandMissing => "mandatory step option 'command' missing"

/-- The configuration, the tokens ahead, the line of the token read last, what was
    logged with its line numbers and how often `lexer_error` was called. -/
structure ParseState where
  cf : Config
  lx : Tokens TokenType
  last : Nat := 0
  log : List (Nat × Message) := []
  err : Nat := 0

/-- The return values of the functions that parse; a value goes with
    `CONFIG_APPEND`. -/
inductive ConfigResult where
  | append (val : Value)
  | error
  | nop
  | fatal
  deriving DecidableEq, Repr

namespace ParseState

/-- `lexer_error`. -/
def lexerError (s : ParseState) (lno : Nat) (m : Message) : ParseState :=
  { s with log := s.log ++ [(lno,m)], err := s.err+1 }

/-- `log_warnx`. -/
def warn (s : ParseState) (lno : Nat) (m : Message) : ParseState := { s with log := s.log ++ [(lno,m)] }

/-- The type of the next token, none at the end of file. -/
def peek (s : ParseState) : Option TokenType := s.lx.pending.head?.map (·.type)

/-- The state after the next token, which does not go past the end of file. -/
def advance (s : ParseState) : ParseState :=
  match s.lx.pending with
  | [] => { s with last := s.lx.eofLno }
  | tk :: tks => { s with lx := { s.lx with pending := tks }, last := tk.lno }

/-- `lexer_expect`. -/
def expect (type : TokenType) (s : ParseState) : Option (Token TokenType) × ParseState :=
  match lexerExpect type s.lx with
  | (.ok tk,lx) => (some tk,{ s with lx := lx, last := tk.lno })
  | (.error u,lx) => (none,{ s with lx := lx, last := u.lno }.lexerError u.lno (.unexpected u))

/-- How many tokens are ahead. -/
def ahead (s : ParseState) : Nat := s.lx.pending.length

@[simp] theorem ahead_lexerError (s : ParseState) (lno : Nat) (m : Message) :
    (s.lexerError lno m).ahead = s.ahead := rfl

@[simp] theorem ahead_warn (s : ParseState) (lno : Nat) (m : Message) : (s.warn lno m).ahead = s.ahead := rfl

@[simp] theorem ahead_cf (s : ParseState) (cf : Config) : { s with cf := cf }.ahead = s.ahead := rfl

theorem ahead_advance (s : ParseState) : s.advance.ahead ≤ s.ahead := by
  unfold advance ahead
  split <;> simp_all

/-- A token that is seen is behind after the state advances. -/
theorem ahead_advance_lt {s : ParseState} {type : TokenType} (seen : s.peek = some type) :
    s.advance.ahead < s.ahead := by
  unfold advance ahead
  unfold peek at seen
  cases ahead : s.lx.pending with
  | nil => simp [ahead] at seen
  | cons tk tks => simp

theorem ahead_expect (type : TokenType) (s : ParseState) : (s.expect type).2.ahead ≤ s.ahead := by
  unfold expect lexerExpect ahead
  cases pending : s.lx.pending with
  | nil => simp [lexerError,pending]
  | cons tk tks => by_cases same : tk.type = type <;> simp [same,lexerError]

theorem ahead_expect_lt {type : TokenType} {s : ParseState} {tk : Token TokenType} (got : (s.expect type).1 = some tk) :
    (s.expect type).2.ahead < s.ahead := by
  unfold expect at got ⊢
  split at got
  · next tk' lx run => simpa [run,ahead] using lexerExpect_length run
  · cases got

end ParseState

/-! ## Values -/

/-- `config_parse_boolean`. -/
def configParseBoolean (s : ParseState) : ConfigResult × ParseState :=
  match s.expect .boolean with
  | (none,s) => (.error,s)
  | (some tk,s) => (.append (.integer (if tk.int = 0 then 0 else 1)),s)

/-- `config_parse_string`. -/
def configParseString (s : ParseState) : ConfigResult × ParseState :=
  match s.expect .string with
  | (none,s) => (.error,s)
  | (some tk,s) => (.append (.string tk.str),s)

/-- `config_parse_integer`, which assigns the number as `i64`. -/
def configParseInteger (host : Host) (s : ParseState) : ConfigResult × ParseState :=
  match s.expect .integer with
  | (none,s) => (.error,s)
  | (some tk,s) => (.append (.integer (host.i64 tk.int)),s)

/-- `config_parse_glob`. -/
def configParseGlob (host : Host) (s : ParseState) : ConfigResult × ParseState :=
  match s.expect .string with
  | (none,s) => (.error,s)
  | (some tk,s) =>
    match host.glob tk.str with
    | .noMatch => (.nop,s)
    | .failed reason => (.fatal,s.lexerError tk.lno (.glob reason))
    | .paths xs => (.append (.list xs),s)

/-- The loop of `config_parse_list` over the strings. -/
def configParseStrings (xs : List Str) (s : ParseState) : ConfigResult × ParseState :=
  if s.peek = some .rbrace then (.append (.list xs),s.advance)
  else match _got : (s.expect .string).1 with
    | none => (.fatal,(s.expect .string).2)
    | some tk => configParseStrings (xs ++ [tk.str]) (s.expect .string).2
termination_by s.ahead
decreasing_by exact ParseState.ahead_expect_lt _got

/-- `config_parse_list`. -/
def configParseList (s : ParseState) : ConfigResult × ParseState :=
  match s.expect .lbrace with
  | (none,s) => (.error,s)
  | (some _,s) => configParseStrings [] s

/-- `config_parse_user`. -/
def configParseUser (host : Host) (s : ParseState) : ConfigResult × ParseState :=
  match s.expect .string with
  | (none,s) => (.error,s)
  | (some tk,s) =>
    if host.user tk.str then (.append (.string tk.str),s)
    else (.error,s.lexerError tk.lno (.userNotFound tk.str))

/-- The seconds in a unit of time. -/
def scalar : TokenType → Option Int
  | .seconds => some 1
  | .minutes => some 60
  | .hours => some 3600
  | _ => none

/-- `config_parse_timeout`. -/
def configParseTimeout (host : Host) (s : ParseState) : ConfigResult × ParseState :=
  match s.expect .integer with
  | (none,s) => (.error,s)
  | (some tk,s) =>
    let timeout := host.i64 tk.int
    match s.peek.bind scalar with
    | none => (.error,s.advance.lexerError s.advance.last .unknownTimeoutUnit)
    | some scalar =>
      let s := s.advance
      if i32 (scalar*timeout) = scalar*timeout then (.append (.integer (scalar*timeout)),s)
      else (.error,s.lexerError s.last .timeoutTooLarge)

/-- `config_parse_directory`; an empty string was reported by the lexer. -/
def configParseDirectory (host : Host) (s : ParseState) : ConfigResult × ParseState :=
  match s.expect .string with
  | (none,s) => (.error,s)
  | (some tk,s) =>
    if tk.str = [] then (.error,s)
    else match interpolateStr (configInterpolateLookup host) false tk.str s.cf with
      | (.error e,cf) => (.error,{ s with cf := cf }.warn tk.lno (.interpolation e))
      | (.ok path,cf) =>
        let s := { s with cf := cf }
        match host.stat path with
        | .failed reason => (.error,s.lexerError tk.lno (.stat path reason))
        | .other => (.error,s.lexerError tk.lno (.notDirectory path))
        | .directory => (.append (.string tk.str),s)

/-! ## Regress suites -/

/-- What the names of suite variables start with. -/
def regressDash : Str := "regress-".toList

/-- `regressname`. -/
def regressname (path suffix : Str) : Str := regressDash ++ path ++ '-' :: suffix

/-- A reference to a variable. -/
def reference (name : Str) : Str := '$' :: '{' :: name ++ ['}']

/-- `config_parse_regress_option_env`: the list is replaced by its early
    interpolation in the variable that was appended for it. Whether it succeeds
    comes with the state. -/
def configParseRegressOptionEnv (host : Host) (path : Str) (s : ParseState) : Bool × ParseState :=
  match configParseList s with
  | (.append (.list xs),s) =>
    let name := regressname path "env".toList
    let index := s.cf.vars.length
    let cf := configAppend s.cf name (.list (reference "regress-env".toList :: xs))
    match configInterpolateEarly host (reference name) cf with
    | (none,cf) => (false,{ s with cf := cf })
    | (some str,cf) => (true,{ s with cf := { cf with vars := cf.vars.set index (name,.string str) } })
  | (_,s) => (false,s)

/-- An option that appends an integer. -/
def optionFlag (path suffix : Str) (n : Int) (s : ParseState) : Bool × ParseState :=
  (true,{ s with cf := configAppend s.cf (regressname path suffix) (.integer n) })

/-- An option whose list is appended to the list of a name. -/
def optionList (name : Str) (s : ParseState) : Bool × ParseState :=
  match configParseList s with
  | (.append (.list xs),s) => (true,{ s with cf := configConcat s.cf name xs })
  | (_,s) => (false,s)

def optionTimeout (host : Host) (path : Str) (s : ParseState) : Bool × ParseState :=
  match configParseTimeout host s with
  | (.append val,s) => (true,{ s with cf := configAppend s.cf (regressname path "timeout".toList) val })
  | (_,s) => (false,s)

/-- The option of a `regress` statement that the next token names, if any. -/
def regressOption (host : Host) (path : Str) (s : ParseState) : Option (Bool × ParseState) :=
  match s.peek with
  | some .env => some (configParseRegressOptionEnv host path s.advance)
  | some .noParallel => some (optionFlag path "parallel".toList 0 s.advance)
  | some .obj => some (optionList "regress-obj".toList s.advance)
  | some .packages => some (optionList "regress-packages".toList s.advance)
  | some .quiet => some (optionFlag path "quiet".toList 1 s.advance)
  | some .root => some (optionFlag path "root".toList 1 s.advance)
  | some .targets => some (optionList (regressname path "targets".toList) s.advance)
  | some .timeout => some (optionTimeout host path s.advance)
  | _ => none

theorem configParseStrings_ahead (xs : List Str) (s : ParseState) : (configParseStrings xs s).2.ahead ≤ s.ahead := by
  induction size : s.ahead using Nat.strongRecOn generalizing xs s with
  | _ n ih =>
    rw [configParseStrings]
    split
    · exact size ▸ s.ahead_advance
    · split
      · exact size ▸ s.ahead_expect .string
      · next tk got =>
        have shorter := ParseState.ahead_expect_lt got
        have := ih _ (size ▸ shorter) (xs ++ [tk.str]) _ rfl
        omega

theorem configParseList_ahead (s : ParseState) : (configParseList s).2.ahead ≤ s.ahead := by
  have opened := s.ahead_expect .lbrace
  unfold configParseList
  split
  · next run => rw [run] at opened; exact opened
  · next run =>
    rw [run] at opened
    exact (configParseStrings_ahead [] _).trans opened

theorem configParseTimeout_ahead (host : Host) (s : ParseState) : (configParseTimeout host s).2.ahead ≤ s.ahead := by
  have number := s.ahead_expect .integer
  unfold configParseTimeout
  split
  · next run => rw [run] at number; exact number
  · next next run =>
    rw [run] at number
    have := next.ahead_advance
    dsimp only at number ⊢
    split
    · simp only [ParseState.ahead_lexerError]; omega
    · split
      · dsimp only; omega
      · simp only [ParseState.ahead_lexerError]; omega

theorem configParseRegressOptionEnv_ahead (host : Host) (path : Str) (s : ParseState) :
    (configParseRegressOptionEnv host path s).2.ahead ≤ s.ahead := by
  have list := configParseList_ahead s
  unfold configParseRegressOptionEnv
  split
  · next run =>
    rw [run] at list
    dsimp only
    split <;> exact list
  · next run => rw [run] at list; exact list

theorem optionList_ahead (name : Str) (s : ParseState) : (optionList name s).2.ahead ≤ s.ahead := by
  have list := configParseList_ahead s
  unfold optionList
  split
  all_goals next run => rw [run] at list; exact list

theorem optionTimeout_ahead (host : Host) (path : Str) (s : ParseState) :
    (optionTimeout host path s).2.ahead ≤ s.ahead := by
  have timeout := configParseTimeout_ahead host s
  unfold optionTimeout
  split
  all_goals next run => rw [run] at timeout; exact timeout

/-- An option takes at least its own token. -/
theorem regressOption_ahead {host : Host} {path : Str} {s s' : ParseState} {read : Bool}
    (option : regressOption host path s = some (read,s')) : s'.ahead < s.ahead := by
  have behind : ∀ {type} {out : Bool × ParseState}, s.peek = some type → out.2.ahead ≤ s.advance.ahead →
      some out = some (read,s') → s'.ahead < s.ahead := by
    intro type out seen le same
    cases same
    exact lt_of_le_of_lt le (ParseState.ahead_advance_lt seen)
  unfold regressOption at option
  split at option
  · next seen => exact behind seen (configParseRegressOptionEnv_ahead _ _ _) option
  · next seen => exact behind seen (Nat.le_refl _) option
  · next seen => exact behind seen (optionList_ahead _ _) option
  · next seen => exact behind seen (optionList_ahead _ _) option
  · next seen => exact behind seen (Nat.le_refl _) option
  · next seen => exact behind seen (Nat.le_refl _) option
  · next seen => exact behind seen (optionList_ahead _ _) option
  · next seen => exact behind seen (optionTimeout_ahead _ _ _) option
  · cases option

/-- The loop of `config_parse_regress` over the options, and whether it succeeds. -/
def regressOptions (host : Host) (path : Str) (s : ParseState) : Bool × ParseState :=
  match _option : regressOption host path s with
  | none => (true,s)
  | some (false,s') => (false,s')
  | some (true,s') => regressOptions host path s'
termination_by s.ahead
decreasing_by exact regressOption_ahead _option

/-- `config_parse_regress`. -/
def configParseRegress (host : Host) (s : ParseState) : ConfigResult × ParseState :=
  match s.expect .string with
  | (none,s) => (.error,s)
  | (some tk,s) =>
    match regressOptions host tk.str s with
    | (false,s) => (.error,s)
    | (true,s) => (.nop,{ s with cf := configConcat s.cf "regress".toList [tk.str] })

/-- `config_parse_regress_env`. -/
def configParseRegressEnv (s : ParseState) : ConfigResult × ParseState :=
  match configParseList s with
  | (.append (.list xs),s) => (.nop,{ s with cf := configConcat s.cf "regress-env".toList xs })
  | (_,s) => (.error,s)

/-! ## Canvas steps -/

/-- `config_parse_canvas_directory`. -/
def configParseCanvasDirectory (host : Host) (s : ParseState) : ConfigResult × ParseState :=
  match configParseDirectory host s with
  | (.append val,s) =>
    (.nop,{ s with cf := configAppend (configAppend s.cf "canvas-dir".toList val) "robsddir".toList val })
  | out => out

/-- A command with the environment in front of it, unless it is empty. -/
def commandWithEnv (env : Option Value) (command : List Str) : List Str :=
  match command,env with
  | [],_ => []
  | command,some (.list xs) => "env".toList :: xs ++ command
  | command,_ => command

/-- The option of a `step` statement that the next token names, if any: the
    command and the parallel flag after it, none where it is broken. -/
def canvasOption (host : Host) (command : List Str) (parallel : Bool) (s : ParseState) :
    Option (Option (List Str × Bool) × ParseState) :=
  match s.peek with
  | some .command =>
    match configParseList s.advance with
    | (.append (.list xs),s) =>
      let found := if xs = [] then (none,s.cf) else configFind host "env".toList s.cf
      some (some (commandWithEnv found.1 xs,parallel),{ s with cf := found.2 })
    | (_,s) => some (none,s)
  | some .parallel => some (some (command,true),s.advance)
  | _ => none

theorem canvasOption_ahead {host : Host} {command : List Str} {parallel : Bool} {s s' : ParseState}
    {read : Option (List Str × Bool)} (option : canvasOption host command parallel s = some (read,s')) :
    s'.ahead < s.ahead := by
  unfold canvasOption at option
  split at option
  · next seen =>
    have step := ParseState.ahead_advance_lt seen
    have list := configParseList_ahead s.advance
    split at option
    all_goals
      next run =>
      rw [run] at list
      cases option
      exact lt_of_le_of_lt list step
  · next seen =>
    cases option
    exact ParseState.ahead_advance_lt seen
  · cases option

/-- The loop of `config_parse_canvas_step` over the options. -/
def canvasOptions (host : Host) (command : List Str) (parallel : Bool) (s : ParseState) :
    Option (List Str × Bool) × ParseState :=
  match _option : canvasOption host command parallel s with
  | none => (some (command,parallel),s)
  | some (none,s') => (none,s')
  | some (some (command,parallel),s') => canvasOptions host command parallel s'
termination_by s.ahead
decreasing_by exact canvasOption_ahead _option

/-- `config_parse_canvas_step`. -/
def configParseCanvasStep (host : Host) (s : ParseState) : ConfigResult × ParseState :=
  match s.expect .string with
  | (none,s) => (.error,s)
  | (some tk,s) =>
    match canvasOptions host [] false s with
    | (none,s) => (.error,s)
    | (some (command,parallel),s) =>
      if command = [] then (.error,s.lexerError s.last .commandMissing)
      else
        let cf := if s.cf.canvasSteps = [] then configAppend s.cf "step".toList .invalid else s.cf
        (.nop,{ s with cf := { cf with canvasSteps := cf.canvasSteps ++ [⟨tk.str,command,parallel⟩] } })

/-! ## Keywords -/

/-- The function behind `gr_fn`. -/
def parse (host : Host) : Parser → ParseState → ConfigResult × ParseState
  | .boolean => configParseBoolean
  | .canvasDirectory => configParseCanvasDirectory host
  | .canvasStep => configParseCanvasStep host
  | .directory => configParseDirectory host
  | .glob => configParseGlob host
  | .integer => configParseInteger host
  | .list => configParseList
  | .regress => configParseRegress host
  | .regressEnv => configParseRegressEnv
  | .string => configParseString
  | .timeout => configParseTimeout host
  | .user => configParseUser host

/-- `config_parse_keyword`. -/
def configParseKeyword (host : Host) (tk : Token TokenType) (s : ParseState) : ConfigResult × ParseState :=
  match configFindGrammarForKeyword s.cf.mode tk.str with
  | none => (.fatal,s.lexerError tk.lno (.unknownKeyword tk.str))
  | some (gr,fn) =>
    let noRepeat := !gr.flags.rep && configPresent s.cf tk.str
    let out := parse host fn s
    let s := match out.1 with
      | .append val => { out.2 with cf := configAppend out.2.cf tk.str val }
      | _ => out.2
    if noRepeat then (.error,s.lexerError tk.lno (.alreadyDefined tk.str)) else (out.1,s)

theorem regressOptions_ahead {host : Host} {path : Str} (s : ParseState) :
    (regressOptions host path s).2.ahead ≤ s.ahead := by
  induction size : s.ahead using Nat.strongRecOn generalizing s with
  | _ n ih =>
    rw [regressOptions]
    split
    · exact size ▸ Nat.le_refl _
    · next option => exact size ▸ (regressOption_ahead option).le
    · next s' option =>
      have shorter := regressOption_ahead option
      have := ih s'.ahead (by omega) s' rfl
      omega

theorem canvasOptions_ahead {host : Host} (command : List Str) (parallel : Bool) (s : ParseState) :
    (canvasOptions host command parallel s).2.ahead ≤ s.ahead := by
  induction size : s.ahead using Nat.strongRecOn generalizing command parallel s with
  | _ n ih =>
    rw [canvasOptions]
    split
    · exact size ▸ Nat.le_refl _
    · next option => exact size ▸ (canvasOption_ahead option).le
    · next command' parallel' s' option =>
      have shorter := canvasOption_ahead option
      have := ih s'.ahead (by omega) command' parallel' s' rfl
      omega

theorem configParseDirectory_ahead (host : Host) (s : ParseState) :
    (configParseDirectory host s).2.ahead ≤ s.ahead := by
  have string := s.ahead_expect .string
  unfold configParseDirectory
  split
  · next run => rw [run] at string; exact string
  · next run =>
    rw [run] at string
    split
    · exact string
    · split
      · exact string
      · dsimp only
        split <;> exact string

/-- No token is put back by the functions that parse. -/
theorem parse_ahead (host : Host) (fn : Parser) (s : ParseState) : (parse host fn s).2.ahead ≤ s.ahead := by
  have string := s.ahead_expect .string
  have list := configParseList_ahead s
  have directory := configParseDirectory_ahead host s
  cases fn with
  | boolean =>
    have boolean := s.ahead_expect .boolean
    change (configParseBoolean s).2.ahead ≤ s.ahead
    unfold configParseBoolean
    split
    all_goals next run => rw [run] at boolean; exact boolean
  | canvasDirectory =>
    change (configParseCanvasDirectory host s).2.ahead ≤ s.ahead
    unfold configParseCanvasDirectory
    split
    · next run => rw [run] at directory; exact directory
    · exact directory
  | canvasStep =>
    change (configParseCanvasStep host s).2.ahead ≤ s.ahead
    unfold configParseCanvasStep
    split
    · next run => rw [run] at string; exact string
    · next next run =>
      rw [run] at string
      have options := (@canvasOptions_ahead host) [] false next
      split
      · next ended => rw [ended] at options; exact options.trans string
      · next ended =>
        rw [ended] at options
        split <;> exact options.trans string
  | directory => exact directory
  | glob =>
    change (configParseGlob host s).2.ahead ≤ s.ahead
    unfold configParseGlob
    split
    · next run => rw [run] at string; exact string
    · next run =>
      rw [run] at string
      split <;> exact string
  | integer =>
    have integer := s.ahead_expect .integer
    change (configParseInteger host s).2.ahead ≤ s.ahead
    unfold configParseInteger
    split
    all_goals next run => rw [run] at integer; exact integer
  | list => exact list
  | regress =>
    change (configParseRegress host s).2.ahead ≤ s.ahead
    unfold configParseRegress
    split
    · next run => rw [run] at string; exact string
    · next tk next run =>
      rw [run] at string
      have options := (@regressOptions_ahead host tk.str) next
      split
      all_goals next ended => rw [ended] at options; exact options.trans string
  | regressEnv =>
    change (configParseRegressEnv s).2.ahead ≤ s.ahead
    unfold configParseRegressEnv
    split
    all_goals next run => rw [run] at list; exact list
  | string =>
    change (configParseString s).2.ahead ≤ s.ahead
    unfold configParseString
    split
    all_goals next run => rw [run] at string; exact string
  | timeout => exact configParseTimeout_ahead host s
  | user =>
    change (configParseUser host s).2.ahead ≤ s.ahead
    unfold configParseUser
    split
    · next run => rw [run] at string; exact string
    · next run =>
      rw [run] at string
      split <;> exact string

theorem configParseKeyword_ahead (host : Host) (tk : Token TokenType) (s : ParseState) :
    (configParseKeyword host tk s).2.ahead ≤ s.ahead := by
  unfold configParseKeyword
  split
  · exact Nat.le_refl _
  · next gr fn _ =>
    have behind := parse_ahead host fn s
    dsimp only
    split
    · split <;> exact behind
    · dsimp only
      split <;> exact behind

/-- The loop of `config_parse_inner`, and whether an error occurred. -/
def configParseLoop (host : Host) (s : ParseState) : Bool × ParseState :=
  if lexerPeekEof s.lx then (false,s)
  else match _keyword : (s.expect .keyword).1 with
    | none => (true,(s.expect .keyword).2)
    | some tk =>
      let out := configParseKeyword host tk (s.expect .keyword).2
      match out.1 with
      | .fatal => (true,out.2)
      | .error => (true,(configParseLoop host out.2).2)
      | _ => configParseLoop host out.2
termination_by s.ahead
decreasing_by
  all_goals
    have := ParseState.ahead_expect_lt _keyword
    have := configParseKeyword_ahead host tk (s.expect .keyword).2
    omega

/-- The required variables that are missing, which `config_validate` reports. -/
def missing (cf : Config) : List Str :=
  ((grammar cf.mode).filter fun gr => gr.flags.req && !configPresent cf gr.kw).map (·.kw)

/-- `config_validate`. -/
def configValidate (s : ParseState) : ParseState :=
  (missing s.cf).foldl (fun s kw => s.lexerError 0 (.mandatoryMissing kw)) s

/-- `config_parse_inner`, and whether an error occurred. -/
def configParseInner (host : Host) (s : ParseState) : Bool × ParseState :=
  let out := configParseLoop host s
  if 0 < out.2.err then (true,out.2)
  else if missing out.2.cf ≠ [] then (true,configValidate out.2)
  else out

/-- The callback `after_parse`. -/
def afterParse (cf : Config) : Config :=
  if cf.mode = .canvas then
    { cf with canvasSteps := configStepsAddScript cf.canvasSteps "/dev/null".toList "end".toList false }
  else cf

/-- `config_parse` on the content of the file: the configuration, or what was
    logged by the time it failed. -/
def configParse (host : Host) (text : Str) (cf : Config) : Except (List (Nat × Message)) Config :=
  match lexerAlloc (configReader cf.mode) ⟨.start text,[]⟩ with
  | .error errors => .error (errors.map fun e => (e.1,.lexical e.2))
  | .ok (lx,s) =>
    let start : ParseState :=
      { cf := cf, lx := lx, log := s.errors.map fun e => (e.1,.lexical e.2), err := s.errors.length }
    match configParseInner host start with
    | (true,s) => .error s.log
    | (false,s) => .ok (afterParse s.cf)

end Robsd.ConfigParse
