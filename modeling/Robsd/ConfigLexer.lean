import Mathlib.Algebra.Group.Nat.Defs
import Robsd.Lexer
import Robsd.Modes

/-!
The lexer of the configuration: the token types of conf-token.c and
`config_lexer_read` of conf.c.
-/
namespace Robsd.ConfigLexer
open Robsd.Strings
open Robsd.Lexer
open Robsd.Modes

/-- `enum token_type`. -/
inductive TokenType where
  | unknown
  | boolean
  | integer
  | string
  | keyword
  | lbrace
  | rbrace
  | command
  | env
  | hours
  | minutes
  | no
  | noParallel
  | obj
  | packages
  | parallel
  | quiet
  | root
  | seconds
  | targets
  | timeout
  | yes
  deriving DecidableEq, Repr

/-- `token_type_str`. -/
def tokenTypeStr : TokenType → String
  | .unknown => "UNKNOWN"
  | .boolean => "BOOLEAN"
  | .integer => "INTEGER"
  | .string => "STRING"
  | .keyword => "KEYWORD"
  | .lbrace => "LBRACE"
  | .rbrace => "RBRACE"
  | .command => "COMMAND"
  | .env => "ENV"
  | .hours => "HOURS"
  | .minutes => "MINUTES"
  | .no => "NO"
  | .noParallel => "NO_PARALLEL"
  | .obj => "OBJ"
  | .packages => "PACKAGES"
  | .parallel => "PARALLEL"
  | .quiet => "QUIET"
  | .root => "ROOT"
  | .seconds => "SECONDS"
  | .targets => "TARGETS"
  | .timeout => "TIMEOUT"
  | .yes => "YES"

/-- The rows of `FOR_TOKEN_TYPES` that have a text, with the only mode in which
    that text is recognized, where there is one. -/
def tokenTypes : List (Str × TokenType × Option Mode) := [
  ("\x7b".toList,.lbrace,none),
  ("\x7d".toList,.rbrace,none),
  ("command".toList,.command,some .canvas),
  ("env".toList,.env,some .robsdRegress),
  ("h".toList,.hours,some .robsdRegress),
  ("m".toList,.minutes,some .robsdRegress),
  ("no".toList,.no,none),
  ("no-parallel".toList,.noParallel,some .robsdRegress),
  ("obj".toList,.obj,some .robsdRegress),
  ("packages".toList,.packages,some .robsdRegress),
  ("parallel".toList,.parallel,some .canvas),
  ("quiet".toList,.quiet,some .robsdRegress),
  ("root".toList,.root,some .robsdRegress),
  ("s".toList,.seconds,none),
  ("targets".toList,.targets,some .robsdRegress),
  ("timeout".toList,.timeout,some .robsdRegress),
  ("yes".toList,.yes,none)]

/-- `token_type_lookup` in the table of a mode. -/
def tokenTypeLookup (mode : Mode) (str : Str) (fallback : TokenType) : TokenType :=
  ((tokenTypes.find? fun row => row.1 = str ∧ (row.2.2 = none ∨ row.2.2 = some mode)).map (·.2.1)).getD fallback

/-- The errors the lexer reports by itself. -/
inductive Problem where
  | integerTooBig
  | unterminatedString
  | emptyString
  deriving DecidableEq, Repr

/-- The text logged for a problem, behind the path and the line number. -/
def Problem.text : Problem → String
  | .integerTooBig => "integer too big"
  | .unterminatedString => "unterminated string"
  | .emptyString => "empty string"

/-- The input and the errors reported so far with their line numbers. -/
structure State where
  input : Input
  errors : List (Nat × Problem)

/-! ## Reading of characters -/

/-- How often a character can still be read, the NUL at the end included. -/
def left (lx : Input) : Nat := lx.rest.length+if lx.eof = 0 then 1 else 0

theorem lexerGetc_left {lx lx' : Input} {c : Char} (read : lexerGetc lx = (some c,lx')) : left lx' < left lx := by
  obtain ⟨rest,lno,eof⟩ := lx
  cases rest with
  | nil =>
    by_cases first : eof = 0
    · simp only [lexerGetc_nil,first,↓reduceIte,Prod.mk.injEq] at read
      simp [left,first,← read.2]
    · simp [first] at read
  | cons d ds =>
    simp only [lexerGetc_cons,Prod.mk.injEq] at read
    simp [left,← read.2]

/-- Nothing is left over after a character was read and pushed back. -/
theorem lexerUngetc_read {lx lx' : Input} {c : Char} (read : lexerGetc lx = (some c,lx')) :
    (lexerUngetc c lx').rest.length ≤ lx.rest.length := by
  obtain ⟨rest,lno,eof⟩ := lx
  cases rest with
  | nil =>
    simp only [lexerGetc_nil,Prod.mk.injEq] at read
    simp [lexerUngetc,← read.2]
  | cons d ds =>
    have pushed := lexerUngetc_length c lx'
    simp only [lexerGetc_cons,Prod.mk.injEq] at read
    rw [← read.2] at pushed ⊢
    simpa using pushed

theorem lexerGetc_eof {lx lx' : Input} (read : lexerGetc lx = (none,lx')) : 0 < lx'.eof ∧ lx'.rest = lx.rest := by
  obtain ⟨rest,lno,eof⟩ := lx
  cases rest with
  | nil =>
    simp only [lexerGetc_nil,Prod.mk.injEq] at read
    simp [← read.2]
  | cons d ds => cases (Prod.mk.inj read).1

/-- The loop over spaces: the first other character, which is NUL at the end. -/
def skipSpaces (lx : Input) : Char × Input :=
  match _read : lexerGetc lx with
  | (none,lx') => (nul,lx')
  | (some ch,lx') => if isspace ch then skipSpaces lx' else (ch,lx')
termination_by left lx
decreasing_by exact lexerGetc_left _read

/-- The loop over the rest of a comment, `ch` being the last character read. -/
def skipComment (ch : Char) (lx : Input) : Input :=
  if ch = '\n' ∨ ch = nul then lx
  else match _read : lexerGetc lx with
    | (none,lx') => lx'
    | (some ch',lx') => skipComment ch' lx'
termination_by left lx
decreasing_by exact lexerGetc_left _read

theorem skipSpaces_left {lx lx' : Input} {ch : Char} (run : skipSpaces lx = (ch,lx')) (more : ch ≠ nul) :
    left lx' < left lx ∧ lx'.rest.length < lx.rest.length := by
  induction size : left lx using Nat.strongRecOn generalizing lx with
  | _ n ih =>
    rw [skipSpaces] at run
    split at run
    · cases run
      exact absurd rfl more
    · next c next read =>
      have shorter := lexerGetc_left read
      split at run
      · next space =>
        have notEnd : c ≠ nul := by rintro rfl; exact absurd space (by decide)
        have := lexerGetc_length read notEnd
        have := ih (left next) (by omega) run rfl
        omega
      · cases run
        exact ⟨by omega,lexerGetc_length read more⟩

theorem lexerGetc_le {lx lx' : Input} {c : Option Char} (read : lexerGetc lx = (c,lx')) :
    left lx' ≤ left lx ∧ lx'.rest.length ≤ lx.rest.length := by
  obtain ⟨rest,lno,eof⟩ := lx
  cases rest with
  | nil =>
    simp only [lexerGetc_nil,Prod.mk.injEq] at read
    simp [left,← read.2]
  | cons d ds =>
    simp only [lexerGetc_cons,Prod.mk.injEq] at read
    simp [left,← read.2]

theorem skipComment_left (ch : Char) (lx : Input) :
    left (skipComment ch lx) ≤ left lx ∧ (skipComment ch lx).rest.length ≤ lx.rest.length := by
  induction size : left lx using Nat.strongRecOn generalizing ch lx with
  | _ n ih =>
    rw [skipComment]
    split
    · omega
    · split
      · next read => exact size ▸ lexerGetc_le read
      · next c next read =>
        have shorter := lexerGetc_left read
        have := lexerGetc_le read
        have := ih (left next) (by omega) c next rfl
        omega

/-- From the label `again` to the first character of a token. -/
def skip (lx : Input) : Char × Input :=
  match _run : skipSpaces lx with
  | (ch,lx') => if _comment : ch = '#' then skip (skipComment ch lx') else (ch,lx')
termination_by left lx
decreasing_by
  have := skipSpaces_left _run (by rw [_comment]; decide)
  have := skipComment_left ch lx'
  omega

/-- The loop over the characters of a word or a number from `ch` on: what was
    collected and the character behind it, NUL at the end. -/
def lexerWhile (p : Char → Bool) (bf : Str) (ch : Char) (lx : Input) : Str × Char × Input :=
  if p ch then
    match _read : lexerGetc lx with
    | (none,lx') => (bf ++ [ch],nul,lx')
    | (some ch',lx') => lexerWhile p (bf ++ [ch]) ch' lx'
  else (bf,ch,lx)
termination_by left lx
decreasing_by exact lexerGetc_left _read

/-- The loop over the characters of a string, which fails on a NUL. -/
def lexerString (bf : Str) (lx : Input) : Option (Str × Input) :=
  match _read : lexerGetc lx with
  | (none,lx') => some (bf,lx')
  | (some ch,lx') =>
    if ch = nul then none
    else if ch = '"' then some (bf,lx')
    else lexerString (bf ++ [ch]) lx'
termination_by left lx
decreasing_by exact lexerGetc_left _read

/-! ## Tokens -/

/-- The characters of a word behind the first one. -/
def isWord (ch : Char) : Bool := islower ch || isdigit ch || ch = '-'

/-- The value of an `int` to which a number is assigned. -/
def i32 (n : Int) : Int := n.bmod (2^32)

/-- One turn of the loop over the digits: whether an overflow occurred and the number. -/
def addDigit (s : Bool × Int) (ch : Char) : Bool × Int :=
  let x : Int := (ch.toNat- '0'.toNat : Nat)
  if i32 (s.2*10) ≠ s.2*10 then (true,i32 (s.2*10))
  else if i32 (s.2*10+x) ≠ s.2*10+x then (true,i32 (s.2*10+x))
  else (s.1,s.2*10+x)

/-- The token for a word. -/
def wordToken (mode : Mode) (lno : Nat) (buf : Str) : Token TokenType :=
  match tokenTypeLookup mode buf .keyword with
  | .keyword => { type := .keyword, lno := lno, str := buf }
  | .yes => { type := .boolean, lno := lno, int := 1 }
  | .no => { type := .boolean, lno := lno, int := 0 }
  | type => { type := type, lno := lno }

/-- `config_lexer_read`. It fails on an unterminated string only. -/
def configLexerRead (mode : Mode) (s : State) : Except (List (Nat × Problem)) (Item TokenType × State) :=
  match skip s.input with
  | (ch,lx) =>
    let lno := lx.lno
    if ch = nul then .ok (.eof lno,⟨lx,s.errors⟩)
    else if islower ch then
      match lexerWhile isWord [] ch lx with
      | (buf,ch,lx) => .ok (.token (wordToken mode lno buf),⟨lexerUngetc ch lx,s.errors⟩)
    else if isdigit ch then
      match lexerWhile isdigit [] ch lx with
      | (digits,ch,lx) =>
        let value := digits.foldl addDigit (false,0)
        .ok (.token { type := .integer, lno := lno, int := value.2 },
          ⟨lexerUngetc ch lx,if value.1 then s.errors ++ [(lno,.integerTooBig)] else s.errors⟩)
    else if ch = '"' then
      match lexerString [] lx with
      | none => .error (s.errors ++ [(lno,.unterminatedString)])
      | some (str,lx) =>
        .ok (.token { type := .string, lno := lno, str := str },
          ⟨lx,if str = [] then s.errors ++ [(lno,.emptyString)] else s.errors⟩)
    else .ok (.token { type := tokenTypeLookup mode [ch] .unknown, lno := lno },⟨lx,s.errors⟩)

theorem skip_length {lx lx' : Input} {ch : Char} (run : skip lx = (ch,lx')) (more : ch ≠ nul) :
    lx'.rest.length < lx.rest.length := by
  induction size : left lx using Nat.strongRecOn generalizing lx with
  | _ n ih =>
    rw [skip] at run
    split at run
    next c next spaces =>
    split at run
    · next comment =>
      have := skipSpaces_left spaces (by rw [comment]; decide)
      have := skipComment_left c next
      have := ih (left (skipComment c next)) (by omega) run rfl
      omega
    · cases run
      exact (skipSpaces_left spaces more).2

/-- What is read behind the last character collected is pushed back. -/
theorem lexerWhile_length {p : Char → Bool} {bf buf : Str} {ch stop : Char} {lx lx' : Input}
    (run : lexerWhile p bf ch lx = (buf,stop,lx')) (first : p ch = true) :
    (lexerUngetc stop lx').rest.length ≤ lx.rest.length := by
  induction size : left lx using Nat.strongRecOn generalizing bf ch lx with
  | _ n ih =>
    rw [lexerWhile,if_pos first] at run
    split at run
    · next read =>
      cases run
      obtain ⟨ended,same⟩ := lexerGetc_eof read
      simp [lexerUngetc,ended,same]
    · next c next read =>
      by_cases more : p c = true
      · have shorter := lexerGetc_left read
        have := lexerGetc_le read
        have := ih (left next) (by omega) run more rfl
        omega
      · rw [lexerWhile,if_neg more] at run
        cases run
        exact lexerUngetc_read read

theorem lexerString_length {bf str : Str} {lx lx' : Input} (run : lexerString bf lx = some (str,lx')) :
    lx'.rest.length ≤ lx.rest.length := by
  induction size : left lx using Nat.strongRecOn generalizing bf lx with
  | _ n ih =>
    rw [lexerString] at run
    split at run
    · next read =>
      cases run
      exact (lexerGetc_le read).2
    · next c next read =>
      have shorter := lexerGetc_left read
      have := (lexerGetc_le read).2
      split_ifs at run
      · cases run
        assumption
      · have := ih (left next) (by omega) run rfl
        omega

theorem configLexerRead_consumes {mode : Mode} {s s' : State} {tk : Token TokenType}
    (run : configLexerRead mode s = .ok (.token tk,s')) : s'.input.rest.length < s.input.rest.length := by
  unfold configLexerRead at run
  split at run
  next ch lx skipped =>
  dsimp only at run
  split at run
  · cases run
  next more =>
  have shorter := skip_length skipped more
  split at run
  · next lower =>
    cases run
    have := (@lexerWhile_length isWord [] _ ch _ lx _) rfl (by simp [isWord,lower])
    dsimp only
    omega
  split at run
  · next digit =>
    cases run
    have := (@lexerWhile_length isdigit [] _ _ _ lx _) rfl digit
    dsimp only
    omega
  split at run
  · split at run
    · cases run
    · next collected =>
      cases run
      have := lexerString_length collected
      dsimp only
      omega
  · cases run
    exact shorter

/-- The read callback of the configuration. -/
def configReader (mode : Mode) : Reader TokenType State (List (Nat × Problem)) where
  size s := s.input.rest.length
  read := configLexerRead mode
  consumes := configLexerRead_consumes

end Robsd.ConfigLexer
