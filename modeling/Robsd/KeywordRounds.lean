import Robsd.ParseRounds
import Robsd.Recursion

/-!
The loop of `config_parse_inner` round by round. The string of a directory is
interpolated where it is given, so that a round may not end; every other statement
keeps clear of the build directory.
-/
namespace Robsd.KeywordRounds
open Robsd.Strings
open Robsd.Lexer
open Robsd.Loops
open Robsd.ConfigLexer (TokenType)
open Robsd.Configuration
open Robsd.ConfigParse
open Robsd.Interpolate
open Robsd.LookupMemo
open Robsd.ParseRounds
open Robsd.Recursion
open Robsd.RegressParse (configParseLoop_eq)
variable {host : Host}

/-! ## Statements that look nothing up -/

@[simp] theorem expect_cf (type : TokenType) (s : ParseState) : (s.expect type).2.cf = s.cf := by
  unfold ParseState.expect
  split <;> rfl

@[simp] theorem advance_cf (s : ParseState) : s.advance.cf = s.cf := by
  unfold ParseState.advance
  split <;> rfl

theorem configParseStrings_cf (xs : List Str) (s : ParseState) : (configParseStrings xs s).2.cf = s.cf := by
  obtain ⟨n,_,leaves⟩ := configParseStrings_returns xs s
  refine leaves.keeps (I := fun st => st.2.cf = s.cf) (P := fun out => out.2.cf = s.cf) ?_ ?_ rfl
  · rintro ⟨xs,s⟩ st same round
    have read := expect_cf .string s
    rw [stringsRound] at round
    split at round
    · cases round
    · split at round
      · cases round
      · next run =>
        cases round
        rw [run] at read
        exact read.trans same
  · rintro ⟨xs,s⟩ out same round
    have read := expect_cf .string s
    rw [stringsRound] at round
    split at round
    · cases round
      exact (advance_cf s).trans same
    · split at round
      · next run =>
        cases round
        rw [run] at read
        exact read.trans same
      · cases round

theorem configParseList_cf (s : ParseState) : (configParseList s).2.cf = s.cf := by
  have opened := expect_cf .lbrace s
  unfold configParseList
  split
  · next run => rw [run] at opened; exact opened
  · next run =>
    rw [run] at opened
    exact (configParseStrings_cf [] _).trans opened

theorem configParseTimeout_cf (s : ParseState) : (configParseTimeout host s).2.cf = s.cf := by
  have number := expect_cf .integer s
  unfold configParseTimeout
  split
  · next run => rw [run] at number; exact number
  · next next run =>
    rw [run] at number
    dsimp only at number ⊢
    split
    · exact (advance_cf next).trans number
    · split <;> exact (advance_cf next).trans number

/-- The functions that look something up. -/
def lookingUp : List Parser := [.canvasDirectory,.canvasStep,.directory,.regress,.regressEnv]

theorem parse_cf {fn : Parser} (plain : fn ∉ lookingUp) (s : ParseState) : (parse host fn s).2.cf = s.cf := by
  have string := expect_cf .string s
  cases fn with
  | canvasDirectory | canvasStep | directory | regress | regressEnv => exact absurd (by decide) plain
  | boolean =>
    have boolean := expect_cf .boolean s
    change (configParseBoolean s).2.cf = s.cf
    unfold configParseBoolean
    split
    all_goals next run => rw [run] at boolean; exact boolean
  | glob =>
    change (configParseGlob host s).2.cf = s.cf
    unfold configParseGlob
    split
    · next run => rw [run] at string; exact string
    · next run =>
      rw [run] at string
      split <;> exact string
  | integer =>
    have integer := expect_cf .integer s
    change (configParseInteger host s).2.cf = s.cf
    unfold configParseInteger
    split
    all_goals next run => rw [run] at integer; exact integer
  | list => exact configParseList_cf s
  | string =>
    change (configParseString s).2.cf = s.cf
    unfold configParseString
    split
    all_goals next run => rw [run] at string; exact string
  | timeout => exact configParseTimeout_cf s
  | user =>
    change (configParseUser host s).2.cf = s.cf
    unfold configParseUser
    split
    · next run => rw [run] at string; exact string
    · next run =>
      rw [run] at string
      split <;> exact string

/-! ## Statements that keep clear of the build directory -/

/-- A configuration outside of an early interpolation, `looped` being what it is. -/
structure Idle (looped : Bool) (cf : Config) : Prop where
  early : cf.early = false
  looped : cf.looped = looped

section
variable {b : Bool}

theorem Idle.find {cf : Config} (idle : Idle b cf) {name : Str} (other : name ≠ buildDirName) :
    Idle b (configFind host name cf).2 := by
  refine ⟨(configFind_kept name cf).early.trans idle.early,?_⟩
  rw [configFind,configFindWith_apart other,configFindInner_looped other]
  exact idle.looped

theorem buildDir_early (mode : Modes.Mode) : isEarlyVariable mode buildDirName = false := by
  cases mode <;> decide

/-- An early interpolation does not look the build directory up. -/
theorem configInterpolateEarly_idle (template : Str) {cf : Config} (idle : Idle b cf) :
    Idle b (configInterpolateEarly host template cf).2 := by
  have looks : ∀ name (cf : Config), cf.early = true ∧ cf.looped = b →
      (configInterpolateLookup host name cf).2.early = true ∧ (configInterpolateLookup host name cf).2.looped = b := by
    intro name cf ⟨early,looped⟩
    rw [configInterpolateLookup,configInterpolateLookupWith]
    split
    · exact ⟨early,looped⟩
    · next passed =>
      have other : name ≠ buildDirName := by
        rintro rfl
        simp [early,buildDir_early] at passed
      refine ⟨(configFind_kept name cf).early.trans early,?_⟩
      dsimp only
      rw [configFind,configFindWith_apart other,configFindInner_looped other]
      exact looped
  have kept := interpolateStr_invariant looks true template (s := { cf with early := true }) ⟨rfl,idle.looped⟩
  exact ⟨rfl,kept.2⟩

theorem configParseRegressOptionEnv_idle (path : Str) {s : ParseState} (idle : Idle b s.cf) :
    Idle b (configParseRegressOptionEnv host path s).2.cf := by
  have list := configParseList_cf s
  unfold configParseRegressOptionEnv
  split
  · next xs s' run =>
    rw [run] at list
    dsimp only at list ⊢
    have appended : Idle b (configAppend s'.cf (regressname path "env".toList)
      (.list (reference "regress-env".toList :: xs))) := by
      rw [list]
      exact ⟨idle.early,idle.looped⟩
    have early := @configInterpolateEarly_idle host b (reference (regressname path "env".toList)) _ appended
    split
    · next run => rw [run] at early; exact early
    · next run => rw [run] at early; exact ⟨early.early,early.looped⟩
  · next run =>
    rw [run] at list
    dsimp only at list ⊢
    rw [list]
    exact idle

theorem optionList_idle (name : Str) {s : ParseState} (idle : Idle b s.cf) : Idle b (optionList name s).2.cf := by
  have list := configParseList_cf s
  unfold optionList
  split
  all_goals
    next run =>
    rw [run] at list
    dsimp only at list ⊢
    rw [list]
    exact ⟨idle.early,idle.looped⟩

theorem optionTimeout_idle (path : Str) {s : ParseState} (idle : Idle b s.cf) :
    Idle b (optionTimeout host path s).2.cf := by
  have timeout := @configParseTimeout_cf host s
  unfold optionTimeout
  split
  all_goals
    next run =>
    rw [run] at timeout
    dsimp only at timeout ⊢
    rw [timeout]
    exact ⟨idle.early,idle.looped⟩

theorem regressOption_idle {path : Str} {s s' : ParseState} {read : Bool} (idle : Idle b s.cf)
    (option : regressOption host path s = some (read,s')) : Idle b s'.cf := by
  have behind : Idle b s.advance.cf := by
    rw [advance_cf]
    exact idle
  have got : ∀ {out : Bool × ParseState}, Idle b out.2.cf → some out = some (read,s') → Idle b s'.cf := by
    intro out kept same
    cases same
    exact kept
  unfold regressOption at option
  split at option
  · exact got (configParseRegressOptionEnv_idle path behind) option
  · exact got ⟨behind.early,behind.looped⟩ option
  · exact got (optionList_idle _ behind) option
  · exact got (optionList_idle _ behind) option
  · exact got ⟨behind.early,behind.looped⟩ option
  · exact got ⟨behind.early,behind.looped⟩ option
  · exact got (optionList_idle _ behind) option
  · exact got (optionTimeout_idle path behind) option
  · cases option

theorem regressOptions_idle (path : Str) {s : ParseState} (idle : Idle b s.cf) :
    Idle b (regressOptions host path s).2.cf := by
  obtain ⟨n,_,leaves⟩ := regressOptions_returns host path s
  refine leaves.keeps (I := fun s => Idle b s.cf) (P := fun out => Idle b out.2.cf) ?_ ?_ idle
  · intro s s' idle round
    rw [regressRound] at round
    split at round
    · cases round
    · cases round
    · next option =>
      cases round
      exact regressOption_idle idle option
  · intro s out idle round
    rw [regressRound] at round
    split at round
    · cases round
      exact idle
    · next option =>
      cases round
      exact regressOption_idle idle option
    · cases round

theorem canvasOption_idle {command : List Str} {parallel : Bool} {s s' : ParseState} {read : Option (List Str × Bool)}
    (idle : Idle b s.cf) (option : canvasOption host command parallel s = some (read,s')) : Idle b s'.cf := by
  have behind : Idle b s.advance.cf := by
    rw [advance_cf]
    exact idle
  have list := configParseList_cf s.advance
  unfold canvasOption at option
  split at option
  · split at option
    · next run =>
      rw [run] at list
      cases option
      dsimp only at list ⊢
      rw [list]
      split
      · exact behind
      · exact behind.find (by decide)
    · next run =>
      rw [run] at list
      cases option
      dsimp only at list
      rw [list]
      exact behind
  · cases option
    exact behind
  · cases option

theorem canvasOptions_idle (command : List Str) (parallel : Bool) {s : ParseState} (idle : Idle b s.cf) :
    Idle b (canvasOptions host command parallel s).2.cf := by
  obtain ⟨n,_,leaves⟩ := canvasOptions_returns host command parallel s
  refine leaves.keeps (I := fun st => Idle b st.2.cf) (P := fun out => Idle b out.2.cf) ?_ ?_ idle
  · intro st st' idle round
    rw [canvasRound] at round
    split at round
    · cases round
    · cases round
    · next option =>
      cases round
      exact canvasOption_idle idle option
  · intro st out idle round
    rw [canvasRound] at round
    split at round
    · cases round
      exact idle
    · next option =>
      cases round
      exact canvasOption_idle idle option
    · cases round

/-- The functions that take a directory. -/
def directories : List Parser := [.canvasDirectory,.directory]

/-- No other statement looks the build directory up. -/
theorem parse_idle {fn : Parser} (other : fn ∉ directories) {s : ParseState} (idle : Idle b s.cf) :
    Idle b (parse host fn s).2.cf := by
  have string := expect_cf .string s
  cases fn with
  | canvasDirectory | directory => exact absurd (by decide) other
  | canvasStep =>
    change Idle b (configParseCanvasStep host s).2.cf
    unfold configParseCanvasStep
    split
    · next run =>
      rw [run] at string
      dsimp only at string ⊢
      rw [string]
      exact idle
    · next next run =>
      rw [run] at string
      dsimp only at string
      rw [← string] at idle
      have options := @canvasOptions_idle host b [] false _ idle
      split
      · next ended => rw [ended] at options; exact options
      · next ended =>
        rw [ended] at options
        split
        · exact options
        · dsimp only
          split <;> exact ⟨options.early,options.looped⟩
  | regress =>
    change Idle b (configParseRegress host s).2.cf
    unfold configParseRegress
    split
    · next run =>
      rw [run] at string
      dsimp only at string ⊢
      rw [string]
      exact idle
    · next tk next run =>
      rw [run] at string
      dsimp only at string
      rw [← string] at idle
      have options := @regressOptions_idle host b tk.str _ idle
      split
      · next ended => rw [ended] at options; exact options
      · next ended => rw [ended] at options; exact ⟨options.early,options.looped⟩
  | regressEnv =>
    have list := configParseList_cf s
    change Idle b (configParseRegressEnv s).2.cf
    unfold configParseRegressEnv
    split
    all_goals
      next run =>
      rw [run] at list
      dsimp only at list ⊢
      rw [list]
      exact ⟨idle.early,idle.looped⟩
  | _ =>
    rw [parse_cf (by decide)]
    exact idle

end

/-! ## Directories -/

/-- `config_parse_directory`, where the computation of the build directory may be
    nested in itself so many times. -/
def configParseDirectoryWithin (host : Host) (depth : Nat) (s : ParseState) : ConfigResult × ParseState :=
  match s.expect .string with
  | (none,s) => (.error,s)
  | (some tk,s) =>
    if tk.str = [] then (.error,s)
    else match interpolateStr (lookupWithin host depth) false tk.str s.cf with
      | (.error e,cf) => (.error,{ s with cf := cf }.warn tk.lno (.interpolation e))
      | (.ok path,cf) =>
        let s := { s with cf := cf }
        match host.stat path with
        | .failed reason => (.error,s.lexerError tk.lno (.stat path reason))
        | .other => (.error,s.lexerError tk.lno (.notDirectory path))
        | .directory => (.append (.string tk.str),s)

/-- `config_parse_canvas_directory`, likewise. -/
def configParseCanvasDirectoryWithin (host : Host) (depth : Nat) (s : ParseState) : ConfigResult × ParseState :=
  match configParseDirectoryWithin host depth s with
  | (.append val,s) =>
    (.nop,{ s with cf := configAppend (configAppend s.cf "canvas-dir".toList val) "robsddir".toList val })
  | out => out

/-- The function behind `gr_fn`, likewise. -/
def parseWithin (host : Host) (depth : Nat) : Parser → ParseState → ConfigResult × ParseState
  | .canvasDirectory => configParseCanvasDirectoryWithin host depth
  | .directory => configParseDirectoryWithin host depth
  | fn => parse host fn

/-- `config_parse_keyword`, likewise. -/
def configParseKeywordWithin (host : Host) (depth : Nat) (tk : Token TokenType) (s : ParseState) :
    ConfigResult × ParseState :=
  match configFindGrammarForKeyword s.cf.mode tk.str with
  | none => (.fatal,s.lexerError tk.lno (.unknownKeyword tk.str))
  | some (gr,fn) =>
    let noRepeat := !gr.flags.rep && configPresent s.cf tk.str
    let out := parseWithin host depth fn s
    let s := match out.1 with
      | .append val => { out.2 with cf := configAppend out.2.cf tk.str val }
      | _ => out.2
    if noRepeat then (.error,s.lexerError tk.lno (.alreadyDefined tk.str)) else (out.1,s)

/-- One round of the loop of `config_parse_inner`, with whether an error occurred. -/
def keywordRound (host : Host) (depth : Nat) (st : Bool × ParseState) : Round (Bool × ParseState) (Bool × ParseState) :=
  if lexerPeekEof st.2.lx then .leave st
  else match st.2.expect .keyword with
    | (none,s) => .leave (true,s)
    | (some tk,s) =>
      match configParseKeywordWithin host depth tk s with
      | (.fatal,s) => .leave (true,s)
      | (.error,s) => .again (true,s)
      | (_,s) => .again (st.1,s)

/-- The string ahead is one whose interpolation has no end. -/
def Blocked (host : Host) (s : ParseState) : Prop :=
  ∃ arg, (s.expect .string).1 = some arg ∧ Endless host s.cf arg.str

/-- The next statement gives a directory by such a string. -/
def Stuck (host : Host) (s : ParseState) : Prop :=
  ∃ kw gr fn, (s.expect .keyword).1 = some kw ∧ configFindGrammarForKeyword s.cf.mode kw.str = some (gr,fn) ∧
    fn ∈ directories ∧ Blocked host (s.expect .keyword).2

/-! ## The configuration after a round -/

section
variable {b : Bool}

theorem configFindWithin_kept :
    ∀ (depth : Nat) (name : Str) (cf : Config), Kept host cf (configFindWithin host depth name cf).2
  | 0,name,cf => configFind_kept name cf
  | depth+1,name,cf => configFindWith_kept (configDefaultBuildDirWith_kept (configFindWithin_kept depth)) name cf

/-- That there was no end is not forgotten. -/
theorem interpolate_stays {cf : Config} (idle : Idle true cf) (depth : Nat) (str : Str) :
    Idle true (interpolateStr (lookupWithin host depth) false str cf).2 :=
  ⟨(interpolateStr_kept (configInterpolateLookupWith_kept (configFindWithin_kept depth)) false str cf).early.trans
    idle.early,interpolateStr_invariant (I := fun cf : Config => cf.looped = true)
      (sticks_lookup (configFindWithin_sticks depth)) false str idle.looped⟩

theorem interpolate_blocked {cf : Config} (idle : Idle b cf) {str : Str} (endless : Endless host cf str) (depth : Nat) :
    Idle true (interpolateStr (lookupWithin host depth) false str cf).2 :=
  ⟨(interpolateStr_kept (configInterpolateLookupWith_kept (configFindWithin_kept depth)) false str cf).early.trans
    idle.early,interpolate_endless idle.early endless depth⟩

theorem interpolate_free {cf : Config} (idle : Idle b cf) {str : Str} (ends : ¬ Endless host cf str) (depth : Nat) :
    interpolateStr (lookupWithin host depth) false str cf = interpolateStr (lookupWithin host 0) false str cf ∧
      Idle b (interpolateStr (lookupWithin host 0) false str cf).2 := by
  obtain ⟨same,kept,looped⟩ := interpolate_settles idle.early ends depth
  exact ⟨same,kept.early.trans idle.early,looped.trans idle.looped⟩

/-- A directory leaves behind what the interpolation of its string does, if that takes place. -/
theorem configParseDirectoryWithin_cf (depth : Nat) (s : ParseState) :
    (configParseDirectoryWithin host depth s).2.cf =
      match (s.expect .string).1 with
      | none => s.cf
      | some tk => if tk.str = [] then s.cf else (interpolateStr (lookupWithin host depth) false tk.str s.cf).2 := by
  have read := expect_cf .string s
  unfold configParseDirectoryWithin
  cases run : s.expect .string with
  | mk got s' =>
    rw [run] at read
    dsimp only at read
    cases got with
    | none => exact read
    | some tk =>
      dsimp only
      by_cases empty : tk.str = []
      · rw [if_pos empty,if_pos empty]
        exact read
      rw [if_neg empty,if_neg empty,read]
      cases interpolateStr (lookupWithin host depth) false tk.str s.cf with
      | mk out cf =>
        cases out with
        | error e => rfl
        | ok path =>
          dsimp only
          cases host.stat path <;> rfl

/-- Both functions leave behind what the interpolation does. -/
theorem parseWithin_directory {fn : Parser} (directory : fn ∈ directories) (depth : Nat) {s : ParseState}
    (idle : Idle b (configParseDirectoryWithin host depth s).2.cf) : Idle b (parseWithin host depth fn s).2.cf := by
  cases fn with
  | directory => exact idle
  | canvasDirectory =>
    change Idle b (configParseCanvasDirectoryWithin host depth s).2.cf
    unfold configParseCanvasDirectoryWithin
    split
    · next run =>
      rw [run] at idle
      exact ⟨idle.early,idle.looped⟩
    · exact idle
  | _ => exact absurd directory (by decide)

theorem parseWithin_other {fn : Parser} (other : fn ∉ directories) (depth : Nat) :
    parseWithin host depth fn = parse host fn := by
  cases fn with
  | canvasDirectory | directory => exact absurd (by decide) other
  | _ => rfl

theorem parseWithin_zero (fn : Parser) : parseWithin host 0 fn = parse host fn := by
  cases fn <;> rfl

theorem parseWithin_stays {fn : Parser} (depth : Nat) {s : ParseState} (idle : Idle true s.cf) :
    Idle true (parseWithin host depth fn s).2.cf := by
  by_cases directory : fn ∈ directories
  · apply parseWithin_directory directory depth
    rw [configParseDirectoryWithin_cf]
    split
    · exact idle
    · split
      · exact idle
      · exact interpolate_stays idle depth _
  · rw [parseWithin_other directory]
    exact parse_idle directory idle

theorem endless_ne_nil {cf : Config} {str : Str} (endless : Endless host cf str) : str ≠ [] :=
  List.ne_nil_of_mem (References.asks_dollar endless.leads)

theorem parseWithin_blocked {fn : Parser} (directory : fn ∈ directories) (depth : Nat) {s : ParseState}
    (idle : Idle b s.cf) (blocked : Blocked host s) :
    Idle true (parseWithin host depth fn s).2.cf := by
  obtain ⟨arg,read,endless⟩ := blocked
  apply parseWithin_directory directory depth
  rw [configParseDirectoryWithin_cf,read]
  dsimp only
  rw [if_neg (endless_ne_nil endless)]
  exact interpolate_blocked idle endless depth

theorem configParseDirectoryWithin_free (depth : Nat) {s : ParseState} (idle : Idle b s.cf) (free : ¬ Blocked host s) :
    configParseDirectoryWithin host depth s = configParseDirectoryWithin host 0 s ∧
      Idle b (configParseDirectoryWithin host 0 s).2.cf := by
  constructor
  · have read := expect_cf .string s
    unfold configParseDirectoryWithin
    cases run : s.expect .string with
    | mk got s' =>
      cases got with
      | none => rfl
      | some tk =>
        rw [run] at read
        dsimp only at read ⊢
        rw [read,(interpolate_free idle (fun endless => free ⟨tk,by rw [run],endless⟩) depth).1]
  · rw [configParseDirectoryWithin_cf]
    split
    · exact idle
    · next tk read =>
      split
      · exact idle
      · exact (interpolate_free idle (fun endless => free ⟨tk,read,endless⟩) 0).2

theorem parseWithin_free {fn : Parser} (depth : Nat) {s : ParseState} (idle : Idle b s.cf)
    (free : fn ∈ directories → ¬ Blocked host s) :
    parseWithin host depth fn s = parseWithin host 0 fn s ∧ Idle b (parseWithin host 0 fn s).2.cf := by
  by_cases directory : fn ∈ directories
  · obtain ⟨same,kept⟩ := configParseDirectoryWithin_free depth idle (free directory)
    refine ⟨?_,parseWithin_directory directory 0 kept⟩
    cases fn with
    | directory => exact same
    | canvasDirectory =>
      change configParseCanvasDirectoryWithin host depth s = configParseCanvasDirectoryWithin host 0 s
      rw [configParseCanvasDirectoryWithin,configParseCanvasDirectoryWithin,same]
    | _ => exact absurd directory (by decide)
  · rw [parseWithin_other directory,parseWithin_other directory]
    exact ⟨rfl,parse_idle directory idle⟩

/-- Appending the value of a statement leaves the configuration idle. -/
theorem configParseKeywordWithin_idle {depth : Nat} {tk : Token TokenType} {s : ParseState} {gr : Grammar}
    {fn : Parser} (found : configFindGrammarForKeyword s.cf.mode tk.str = some (gr,fn))
    (parsed : Idle b (parseWithin host depth fn s).2.cf) :
    Idle b (configParseKeywordWithin host depth tk s).2.cf := by
  rw [configParseKeywordWithin,found]
  dsimp only
  split
  · split <;> exact ⟨parsed.early,parsed.looped⟩
  · dsimp only
    split <;> exact ⟨parsed.early,parsed.looped⟩

theorem configParseKeywordWithin_unknown {depth : Nat} {tk : Token TokenType} {s : ParseState}
    (unknown : configFindGrammarForKeyword s.cf.mode tk.str = none) (idle : Idle b s.cf) :
    Idle b (configParseKeywordWithin host depth tk s).2.cf := by
  rw [configParseKeywordWithin,unknown]
  exact idle

/-- The parser after a round. -/
def roundEnd : Round (Bool × ParseState) (Bool × ParseState) → ParseState
  | .again st => st.2
  | .leave st => st.2

/-- A round ends where its statement does. -/
theorem keywordRound_end (depth : Nat) (st : Bool × ParseState) :
    roundEnd (keywordRound host depth st) =
      match (st.2.expect .keyword).1 with
      | none => if lexerPeekEof st.2.lx then st.2 else (st.2.expect .keyword).2
      | some tk => (configParseKeywordWithin host depth tk (st.2.expect .keyword).2).2 := by
  unfold keywordRound
  cases run : st.2.expect .keyword with
  | mk got s =>
    cases got with
    | none =>
      dsimp only
      split <;> rfl
    | some tk =>
      have more : lexerPeekEof st.2.lx = false := by
        cases pending : st.2.lx.pending with
        | nil => simp [ParseState.expect,lexerExpect,pending] at run
        | cons tk tks => simp [lexerPeekEof,pending]
      simp only [more,Bool.false_eq_true,↓reduceIte]
      cases configParseKeywordWithin host depth tk s with
      | mk result s => cases result <;> rfl

section
variable {st : Bool × ParseState}

theorem keywordRound_idle {depth : Nat} (idle : Idle b st.2.cf)
    (parses : ∀ kw gr fn, (st.2.expect .keyword).1 = some kw →
      configFindGrammarForKeyword st.2.cf.mode kw.str = some (gr,fn) →
      Idle b (parseWithin host depth fn (st.2.expect .keyword).2).2.cf) :
    Idle b (roundEnd (keywordRound host depth st)).cf := by
  have read := expect_cf .keyword st.2
  rw [keywordRound_end]
  split
  · split
    · exact idle
    · rw [read]
      exact idle
  · next kw got =>
    cases found : configFindGrammarForKeyword st.2.cf.mode kw.str with
    | none => exact configParseKeywordWithin_unknown (by rw [read]; exact found) (by rw [read]; exact idle)
    | some pair => exact configParseKeywordWithin_idle (by rw [read]; exact found) (parses kw pair.1 pair.2 got found)

/-- That there was no end is not forgotten. -/
theorem keywordRound_stays (depth : Nat) (idle : Idle true st.2.cf) :
    Idle true (roundEnd (keywordRound host depth st)).cf := by
  refine keywordRound_idle idle fun kw gr fn _ _ => parseWithin_stays depth ?_
  rw [expect_cf]
  exact idle

/-- However deep the computations may be nested, they do not come to an end where the
    parser is stuck. -/
theorem keywordRound_stuck (depth : Nat) (idle : Idle b st.2.cf) (stuck : Stuck host st.2) :
    Idle true (roundEnd (keywordRound host depth st)).cf := by
  obtain ⟨kw,gr,fn,got,found,directory,blocked⟩ := stuck
  have read := expect_cf .keyword st.2
  rw [keywordRound_end,got]
  exact configParseKeywordWithin_idle (by rw [read]; exact found)
    (parseWithin_blocked directory depth (by rw [read]; exact idle) blocked)

/-- Elsewhere a round goes alike however deep they may be nested. -/
theorem keywordRound_free (depth : Nat) (idle : Idle b st.2.cf) (free : ¬ Stuck host st.2) :
    keywordRound host depth st = keywordRound host 0 st ∧ Idle b (roundEnd (keywordRound host 0 st)).cf := by
  have read := expect_cf .keyword st.2
  have parsed : ∀ kw gr fn, (st.2.expect .keyword).1 = some kw →
    configFindGrammarForKeyword st.2.cf.mode kw.str = some (gr,fn) →
      parseWithin host depth fn (st.2.expect .keyword).2 = parseWithin host 0 fn (st.2.expect .keyword).2 ∧
        Idle b (parseWithin host 0 fn (st.2.expect .keyword).2).2.cf := fun kw gr fn got found =>
    parseWithin_free depth (by rw [read]; exact idle) fun directory blocked =>
      free ⟨kw,gr,fn,got,found,directory,blocked⟩
  refine ⟨?_,keywordRound_idle idle fun kw gr fn got found => (parsed kw gr fn got found).2⟩
  unfold keywordRound
  cases run : st.2.expect .keyword with
  | mk got s =>
    cases got with
    | none => rfl
    | some tk =>
      rw [run] at read parsed
      dsimp only at read parsed ⊢
      have same : configParseKeywordWithin host depth tk s = configParseKeywordWithin host 0 tk s := by
        unfold configParseKeywordWithin
        rw [read]
        cases found : configFindGrammarForKeyword st.2.cf.mode tk.str with
        | none => rfl
        | some pair =>
          obtain ⟨gr,fn⟩ := pair
          dsimp only
          rw [(parsed tk gr fn rfl found).1]
      rw [same]

end
end

/-! ## The loop -/

/-- The loop of `config_parse_inner` returns, some depth being deep enough. -/
def Returns (host : Host) (st : Bool × ParseState) : Prop :=
  ∃ depth n out, Leaves (keywordRound host depth) st n out ∧ out.2.cf.looped = false

theorem keywordRound_zero (st : Bool × ParseState) : keywordRound host 0 st =
    if lexerPeekEof st.2.lx then .leave st
    else match st.2.expect .keyword with
      | (none,s) => .leave (true,s)
      | (some tk,s) =>
        match configParseKeyword host tk s with
        | (.fatal,s) => .leave (true,s)
        | (.error,s) => .again (true,s)
        | (_,s) => .again (st.1,s) := by
  have same : ∀ tk s, configParseKeywordWithin host 0 tk s = configParseKeyword host tk s := by
    intro tk s
    unfold configParseKeywordWithin
    simp only [parseWithin_zero]
    rfl
  simp only [keywordRound,same]

/-- Where the computations are not nested, the loop is left with what it is said to
    return. -/
theorem configParseLoop_returns (error : Bool) (s : ParseState) : ∃ n, n ≤ s.ahead+1 ∧
    Leaves (keywordRound host 0) (error,s) n (error || (configParseLoop host s).1,(configParseLoop host s).2) := by
  refine leaves_within (m := fun st => st.2.ahead)
    (f := fun st => (st.1 || (configParseLoop host st.2).1,(configParseLoop host st.2).2)) ?_ (error,s)
  intro st
  obtain ⟨error,s⟩ := st
  dsimp only
  rw [keywordRound_zero,configParseLoop_eq]
  dsimp only
  by_cases ended : lexerPeekEof s.lx = true
  · exact .inr (by rw [if_pos ended,if_pos ended,Bool.or_false])
  rw [if_neg ended,if_neg ended]
  cases run : s.expect .keyword with
  | mk got s' =>
    cases got with
    | none => exact .inr (by rw [Bool.or_true])
    | some tk =>
      have shorter := @ParseState.ahead_expect_lt .keyword s tk (by rw [run])
      have behind := configParseKeyword_ahead host tk s'
      rw [run] at shorter
      dsimp only at shorter ⊢
      cases out : configParseKeyword host tk s' with
      | mk result s'' =>
        rw [out] at behind
        have smaller : s''.ahead < s.ahead := lt_of_le_of_lt behind shorter
        cases result with
        | fatal => exact .inr (by rw [Bool.or_true])
        | error => exact .inl ⟨_,rfl,smaller,by rw [Bool.or_true,Bool.true_or]⟩
        | append val => exact .inl ⟨_,rfl,smaller,rfl⟩
        | nop => exact .inl ⟨_,rfl,smaller,rfl⟩

section
variable {b : Bool} {st : Bool × ParseState}

/-- What was without an end is so where the loop is left. -/
theorem leaves_stays {depth n : Nat} {out : Bool × ParseState} (leaves : Leaves (keywordRound host depth) st n out)
    (idle : Idle true st.2.cf) : out.2.cf.looped = true := by
  refine leaves.keeps (I := fun st => Idle true st.2.cf) (P := fun out => out.2.cf.looped = true) ?_ ?_ idle
  · intro st st' idle round
    have kept := @keywordRound_stays host _ depth idle
    rw [round] at kept
    exact kept
  · intro st out idle round
    have kept := @keywordRound_stays host _ depth idle
    rw [round] at kept
    exact kept.looped

/-- A loop that returns has never been stuck. -/
theorem leaves_free {depth n : Nat} {out : Bool × ParseState} (leaves : Leaves (keywordRound host depth) st n out)
    (returned : out.2.cf.looped = false) (idle : Idle false st.2.cf) {st' : Bool × ParseState}
    (comes : Comes (keywordRound host 0) st st') : ¬ Stuck host st'.2 := by
  induction leaves with
  | @last st out ends =>
    have free : ¬ Stuck host st.2 := by
      intro stuck
      have looped := (keywordRound_stuck depth idle stuck).looped
      rw [ends,roundEnd,returned] at looped
      cases looped
    rw [(keywordRound_free depth idle free).1] at ends
    rcases Relation.ReflTransGen.cases_head comes with rfl | ⟨_,goes,_⟩
    · exact free
    · rw [ends] at goes
      cases goes
  | @next st later n out goes leaves ih =>
    have free : ¬ Stuck host st.2 := by
      intro stuck
      have after := keywordRound_stuck depth idle stuck
      rw [goes] at after
      have looped := leaves_stays leaves after
      rw [returned] at looped
      cases looped
    obtain ⟨same,after⟩ := keywordRound_free depth idle free
    rw [same] at goes
    rw [goes] at after
    rcases Relation.ReflTransGen.cases_head comes with rfl | ⟨_,goes',onwards⟩
    · exact free
    · rw [goes] at goes'
      cases goes'
      exact ih returned after onwards

/-- The loop returns exactly if it never comes to a statement it is stuck at. -/
theorem returns_iff (idle : Idle false st.2.cf) :
    Returns host st ↔ ∀ st', Comes (keywordRound host 0) st st' → ¬ Stuck host st'.2 := by
  constructor
  · rintro ⟨depth,n,out,leaves,returned⟩ st' comes
    exact leaves_free leaves returned idle comes
  · intro free
    obtain ⟨error,s⟩ := st
    obtain ⟨n,_,leaves⟩ := @configParseLoop_returns host error s
    refine ⟨0,n,_,leaves,?_⟩
    refine leaves.keeps (I := fun st' => Idle false st'.2.cf ∧ Comes (keywordRound host 0) (error,s) st')
      (P := fun out => out.2.cf.looped = false) ?_ ?_ ⟨idle,.refl⟩
    · rintro st st' ⟨idle,comes⟩ round
      have kept := (keywordRound_free 0 idle (free st comes)).2
      rw [round] at kept
      exact ⟨kept,comes.tail round⟩
    · rintro st out ⟨idle,comes⟩ round
      have kept := (keywordRound_free 0 idle (free st comes)).2
      rw [round] at kept
      exact kept.looped

end
end Robsd.KeywordRounds
