import Robsd.IntegerStorage
import Robsd.KeywordRounds
import Robsd.LexerRounds

/-!
When parsing terminates (lexer.c, conf.c, conf-robsd-regress.c, conf-canvas.c,
step.c). The lexers and every loop of the parsers are left on all input. What need
not come to an end is the interpolation of a directory, within a single round of
the loop of `config_parse_inner`: it may compute the build directory for which the
place of a file is interpolated, which may ask for the build directory.
-/
namespace Robsd.Termination
open Robsd.Strings
open Robsd.Lexer
open Robsd.Modes
open Robsd.Loops
open Robsd.ConfigLexer (Problem configLexerRead configReader)
open Robsd.ConfigLayout
open Robsd.Configuration
open Robsd.ConfigParse
open Robsd.Statements
open Robsd.Acceptance
open Robsd.Interpolate
open Robsd.LookupMemo
open Robsd.References
open Robsd.LexerRounds
open Robsd.ParseRounds
open Robsd.Recursion
open Robsd.KeywordRounds
open Robsd.IntegerStorage (meaning tokens_render)
open Robsd.RegressRoundTrip (sampleHost)
open Robsd.Steps (Step stepLexerRead stepReader stepsParseHeaderLoop stepsParseRowLoop stepsParseRows)

/-- A list of tokens that ends in its only end of file. -/
def EndsInEof {τ : Type} (list : List (Item τ)) : Prop :=
  ∃ (tks : List (Token τ)) (lno : Nat), list = tks.map .token ++ [.eof lno]

/-- The parser on the tokens of a file. -/
def parseStart (mode : Mode) (lx : Tokens ConfigLexer.TokenType) (s : ConfigLexer.State) : ParseState :=
  { cf := configAlloc mode, lx := lx, log := s.errors.map fun e => (e.1,.lexical e.2), err := s.errors.length }

/-- Every loop that a file goes through is left. -/
structure Terminates (host : Host) (mode : Mode) (text : Str) : Prop where
  /-- A call of `config_lexer_read` returns, a token having been read from the input. -/
  configRead : ∀ s : ConfigLexer.State,
    (∃ n, Leaves (configReadRound mode s.errors) (.spaces s.input) n (configLexerRead mode s)) ∧
    ∀ tk s', configLexerRead mode s = .ok (.token tk,s') → s'.input.rest.length < s.input.rest.length
  /-- A call of `step_lexer_read` does. -/
  stepRead : ∀ lx : Input, (∃ n, Leaves stepReadRound (.start lx) n (stepLexerRead lx)) ∧
    ∀ tk lx', stepLexerRead lx = .ok (.token tk,lx') → lx'.rest.length < lx.rest.length
  /-- `lexer_alloc` returns the tokens of the file, or nothing. -/
  configTokens : ∃ n out, Leaves (allocRound (configReader mode)) (⟨.start text,[]⟩,[]) n out ∧
    ∀ list s, out = .ok (list,s) → EndsInEof list
  stepTokens : ∃ n out, Leaves (allocRound stepReader) (.start text,[]) n out ∧ ∀ list s,
    out = .ok (list,s) → EndsInEof list
  /-- The loops of `config_parse_list`, `config_parse_regress` and
      `config_parse_canvas_step` are left, wherever they are entered. -/
  list : ∀ xs s, ∃ n out, Leaves stringsRound (xs,s) n out
  regress : ∀ path s, ∃ n out, Leaves (regressRound host path) s n out
  canvas : ∀ read s, ∃ n out, Leaves (canvasRound host) (read,s) n out
  /-- So is the loop of `interpolate_inner`. -/
  interpolation : ∀ (lookup : Lookup Config) ignore inner str cf, ∃ n out,
    Leaves (interpolateRound lookup ignore inner) ([],str,cf) n out
  /-- The loops of `steps_parse_header`, `steps_parse_row` and `steps_parse` are left. -/
  header : ∀ lx, ∃ n out, Leaves headerRound ([],lx) n out
  cells : ∀ columns c, ∃ n out, Leaves (cellRound columns) c n out
  rows : ∀ columns lx, ∃ n out, Leaves (rowRound columns) ([],lx) n out
  /-- The loop of `config_parse_inner` returns on the tokens of the file. -/
  keywords : ∀ lx s, lexerAlloc (configReader mode) ⟨.start text,[]⟩ = .ok (lx,s) →
    Returns host (false,parseStart mode lx s)

/-- A list of tokens is there only with its end of file. -/
theorem lexerAlloc_ends {τ α ε : Type} (r : Reader τ α ε) (s : α) : ∃ n out, Leaves (allocRound r) (s,[]) n out ∧
    ∀ list s, out = .ok (list,s) → EndsInEof list := by
  obtain ⟨n,_,leaves⟩ := lexerAlloc_returns r s
  refine ⟨n,_,leaves,?_⟩
  intro list s' done
  cases alloc : lexerAlloc r s with
  | error e => rw [alloc] at done; cases done
  | ok out =>
    rw [alloc] at done
    cases done
    exact ⟨_,_,rfl⟩

theorem parseStart_idle (mode : Mode) (lx : Tokens ConfigLexer.TokenType) (s : ConfigLexer.State) :
    Idle false (parseStart mode lx s).cf := ⟨rfl,rfl⟩

/-- Parsing terminates exactly if no statement is reached that gives a directory by
    a string that leads to the build directory while that is not known and the place
    of the file that names it leads back to it. -/
theorem parsing_terminates_iff (host : Host) (mode : Mode) (text : Str) :
    Terminates host mode text ↔
      ∀ lx s, lexerAlloc (configReader mode) ⟨.start text,[]⟩ = .ok (lx,s) →
        ∀ st, Comes (keywordRound host 0) (false,parseStart mode lx s) st → ¬ Stuck host st.2 := by
  constructor
  · intro terminates lx s alloc
    exact (returns_iff (parseStart_idle mode lx s)).mp (terminates.keywords lx s alloc)
  · intro free
    have entered : ∀ {σ ρ : Type} {body : σ → Round σ ρ} {s : σ} {bound : Nat} {r : ρ},
        (∃ n, n ≤ bound ∧ Leaves body s n r) → ∃ n out, Leaves body s n out := by
      rintro _ _ _ _ _ r ⟨n,_,leaves⟩
      exact ⟨n,r,leaves⟩
    exact {
      configRead := fun s => ⟨(configLexerRead_returns s).imp fun _ => And.right,fun _ _ =>
        ConfigLexer.configLexerRead_consumes⟩
      stepRead := fun lx => ⟨(stepLexerRead_returns lx).imp fun _ => And.right,fun _ _ => Steps.stepLexerRead_consumes⟩
      configTokens := lexerAlloc_ends _ _
      stepTokens := lexerAlloc_ends _ _
      list := fun xs s => entered (configParseStrings_returns xs s)
      regress := fun path s => entered (regressOptions_returns host path s)
      canvas := fun read s => entered (canvasOptions_returns host read.1 read.2 s)
      interpolation := fun lookup ignore inner str cf => entered (interpolateInner_returns lookup ignore inner str cf)
      header := fun lx => entered (stepsParseHeaderLoop_returns [] lx)
      cells := fun columns c => entered (stepsParseRowLoop_returns columns c)
      rows := fun columns lx => entered (stepsParseRows_returns columns lx)
      keywords := fun lx s alloc => (returns_iff (parseStart_idle mode lx s)).mpr (free lx s alloc) }

/-! ## Files without an end -/

/-- The loop comes behind statements that can be run. -/
theorem comes_behind {host : Host} :
    ∀ (sts : List Statement) {s : ParseState} {cf : Config} {ds : List Datum}, Ended ds →
    runAll host sts s.cf = some cf → s.lx.pending.map datum = sts.flatMap Statement.data ++ ds →
    ∃ tks lno, tks.map datum = ds ∧ Comes (keywordRound host 0) (false,s) (false,reached s tks lno cf)
  | [],s,cf,ds,_,ran,ahead => by
    cases ran
    exact ⟨s.lx.pending,s.last,ahead,.refl⟩
  | st :: sts,s,cf,ds,ended,ran,ahead => by
    rw [runAll,List.foldlM_cons] at ran
    obtain ⟨mid,first,later⟩ := Option.bind_eq_some_iff.mp ran
    rw [List.flatMap_cons,List.append_assoc] at ahead
    obtain ⟨tk,s',out,tks,lno,more,got,run,rest,sound,alive⟩ := statement_taken (ended_statements sts ended) first ahead
    obtain ⟨tks',lno',behind,comes⟩ := comes_behind sts (s := reached s tks lno mid) ended later rest
    refine ⟨tks',lno',behind,.head ?_ comes⟩
    rw [keywordRound_zero,if_neg (by rw [more]; decide),got]
    dsimp only
    rw [run]
    cases out with
    | append val => rfl
    | nop => rfl
    | error => exact absurd rfl sound
    | fatal => exact absurd rfl alive

/-- A file does not come to an end whose statements run up to a directory for which
    there is none. -/
theorem endless_file {host : Host} {mode : Mode} {text kw str : Str} {sts : List Statement} {cf : Config}
    {ds : List Datum} {gr : Grammar} {fn : Parser}
    (lexed : tokens mode text = some (sts.flatMap Statement.data ++ .keyword kw :: .string str :: ds))
    (ran : runAll host sts (configAlloc mode) = some cf)
    (found : configFindGrammarForKeyword cf.mode kw = some (gr,fn)) (directory : fn ∈ directories)
    (endless : Endless host cf str) :
    ¬ Terminates host mode text := by
  intro terminates
  unfold tokens at lexed
  cases alloc : lexerAlloc (configReader mode) ⟨.start text,[]⟩ with
  | error e => rw [alloc] at lexed; cases lexed
  | ok out =>
    obtain ⟨lx,s⟩ := out
    rw [alloc] at lexed
    have ended : Ended (.keyword kw :: .string str :: ds) := by
      intro d head
      cases head
      exact ⟨kw,rfl⟩
    obtain ⟨tks,lno,ahead,comes⟩ := comes_behind sts (s := parseStart mode lx s) ended ran (Option.some.inj lexed)
    apply (returns_iff (parseStart_idle mode lx s)).mp (terminates.keywords lx s alloc) _ comes
    let s₁ := reached (parseStart mode lx s) tks lno cf
    obtain ⟨tk,tks',got,meant,rest⟩ := expect_runs (s := s₁) ahead fun tk meant => (datum_keyword meant).1
    obtain ⟨arg,tks'',got',meant',_⟩ := expect_string (s := reached s₁ tks' tk.lno cf) rest
    refine ⟨tk,gr,fn,by rw [got],?_,directory,arg,?_,?_⟩
    · rw [(datum_keyword meant).2]
      exact found
    · rw [got]
      exact congrArg Prod.fst got'
    · rw [got,meant']
      exact endless

/-- The build directory is in a directory whose name is a variable, and the variable
    is the build directory. -/
def circular : List Statement := [
  ⟨"robsddir".toList,.string "/tmp$\x7bcvs-root\x7d".toList⟩,
  ⟨"cvs-root".toList,.string "$\x7bbuilddir\x7d".toList⟩]

def circularLexemes : List Lexeme := [
  .word "robsddir".toList,.string "/tmp$\x7bcvs-root\x7d".toList,
  .word "cvs-root".toList,.string "$\x7bbuilddir\x7d".toList,
  .word "bsd-srcdir".toList,.string "$\x7bbuilddir\x7d".toList]

/-- A file with these statements and a directory that asks for the build directory. -/
def circularText : Str := render [] (spaced circularLexemes)

/-- The configuration when the last one is reached. -/
def circularConfig : Config := { mode := .robsd, vars := [
  ("robsddir".toList,.string "/tmp$\x7bcvs-root\x7d".toList),
  ("cvs-root".toList,.string "$\x7bbuilddir\x7d".toList)] }

theorem circular_runs : runAll sampleHost circular (configAlloc .robsd) = some circularConfig := by
  have unset : configInterpolateLookup sampleHost "cvs-root".toList (configAlloc .robsd) =
    (some [],configAlloc .robsd) := rfl
  have empty : ∀ levels, interpolate (configInterpolateLookup sampleHost) false (levels+1) [] (configAlloc .robsd) =
      (.ok [],configAlloc .robsd) := fun levels => interpolate_plain _ _ levels (by decide) _
  have path : interpolateStr (configInterpolateLookup sampleHost) false "/tmp$\x7bcvs-root\x7d".toList
    (configAlloc .robsd) =
      (.ok "/tmp".toList,configAlloc .robsd) := by
    refine (@interpolate_reference _ (configInterpolateLookup sampleHost) false 3 "/tmp".toList
      "cvs-root".toList [] (by decide) (by decide) (by decide) (configAlloc .robsd)).trans ?_
    rw [unset]
    dsimp only
    rw [empty]
    dsimp only
    rw [empty]
    rfl
  have directory : runDirectory sampleHost "/tmp$\x7bcvs-root\x7d".toList (configAlloc .robsd) =
    some (configAlloc .robsd) := by
    rw [runDirectory,if_neg (by decide),path]
    rfl
  have first : Statement.run sampleHost (configAlloc .robsd)
    ⟨"robsddir".toList,.string "/tmp$\x7bcvs-root\x7d".toList⟩ =
      (runDirectory sampleHost "/tmp$\x7bcvs-root\x7d".toList (configAlloc .robsd)).map fun cf =>
        configAppend cf "robsddir".toList (.string "/tmp$\x7bcvs-root\x7d".toList) := rfl
  rw [circular,runAll,List.foldlM_cons,first,directory]
  rfl

theorem circular_endless : Endless sampleHost circularConfig "$\x7bbuilddir\x7d".toList := by
  have builddir : ∀ levels, Asks (textOf sampleHost circularConfig) buildDirName (levels+1)
    "$\x7bbuilddir\x7d".toList := fun levels =>
    @Asks.here _ _ levels [] [] (by decide) (by decide) (by decide)
  have cvsRoot : ∀ levels, Asks (textOf sampleHost circularConfig) buildDirName (levels+2)
    "/tmp$\x7bcvs-root\x7d".toList := fun levels =>
    @Asks.inside _ _ (levels+1) "/tmp".toList "cvs-root".toList _ [] (by decide) (by decide) (by decide)
      rfl (builddir levels)
  exact ⟨rfl,builddir 3,@Asks.inside _ _ 3 [] "robsddir".toList _ "/.running".toList (by decide) (by decide)
    (by decide) rfl (cvsRoot 1)⟩

/-- Parsing it does not come to an end. -/
theorem parsing_circular : ¬ Terminates sampleHost .robsd circularText := by
  have written := (@tokens_render .robsd [] (spaced circularLexemes) (layout_spaced _) (by decide)).2
  exact @endless_file _ _ _ _ _ circular _ [] _ _ written circular_runs rfl (by decide) circular_endless

end Robsd.Termination
