import Robsd.ConfigLayout
import Robsd.Loops
import Robsd.Steps

/-!
The loops of the lexers round by round, each round reading one character at most:
the read callbacks of the configuration and of the step file, and `lexer_alloc`
that calls them until the end of file.
-/
namespace Robsd.LexerRounds
open Robsd.Strings
open Robsd.Lexer
open Robsd.Modes
open Robsd.Loops
open Robsd.ConfigLexer
open Robsd.ConfigLayout (skip_eq)

/-! ## The read callback of the configuration -/

/-- Where `config_lexer_read` is in between two rounds of its loops. -/
inductive Point where
  /-- At the label `again`. -/
  | spaces (lx : Input)
  /-- In a comment, `ch` being the last character read. -/
  | comment (ch : Char) (lx : Input)
  | word (lno : Nat) (bf : Str) (ch : Char) (lx : Input)
  | digits (lno : Nat) (bf : Str) (ch : Char) (lx : Input)
  | string (lno : Nat) (bf : Str) (lx : Input)

/-- What a read callback returns. -/
abbrev Answer := Except (List (Nat × Problem)) (Item TokenType × State)

variable (mode : Mode) (errors : List (Nat × Problem))

/-- A word that ends in front of a character. -/
def afterWord (lno : Nat) (buf : Str) (ch : Char) (lx : Input) : Answer :=
  .ok (.token (wordToken mode lno buf),⟨lexerUngetc ch lx,errors⟩)

/-- A number that ends in front of a character. -/
def afterDigits (lno : Nat) (digits : Str) (ch : Char) (lx : Input) : Answer :=
  let value := digits.foldl addDigit (false,0)
  .ok (.token { type := .integer, lno := lno, int := value.2 },
    ⟨lexerUngetc ch lx,if value.1 then errors ++ [(lno,.integerTooBig)] else errors⟩)

/-- A string that is closed, or ends with the input. -/
def afterString (lno : Nat) (str : Str) (lx : Input) : Answer :=
  .ok (.token { type := .string, lno := lno, str := str },
    ⟨lx,if str = [] then errors ++ [(lno,.emptyString)] else errors⟩)

/-- What the first character other than a space starts. -/
def dispatch (ch : Char) (lx : Input) : Round Point Answer :=
  if ch = nul then .leave (.ok (.eof lx.lno,⟨lx,errors⟩))
  else if ch = '#' then .again (.comment ch lx)
  else if islower ch then .again (.word lx.lno [] ch lx)
  else if isdigit ch then .again (.digits lx.lno [] ch lx)
  else if ch = '"' then .again (.string lx.lno [] lx)
  else .leave (.ok (.token { type := tokenTypeLookup mode [ch] .unknown, lno := lx.lno },⟨lx,errors⟩))

/-- One round of the loop over the characters of a word or a number, with what comes
    after it and where the next round begins. -/
def whileRound (p : Char → Bool) (after : Str → Char → Input → Answer) (point : Str → Char → Input → Point) (bf : Str)
    (ch : Char) (lx : Input) : Round Point Answer :=
  if p ch then
    match lexerGetc lx with
    | (none,lx) => .leave (after (bf ++ [ch]) nul lx)
    | (some ch',lx) => .again (point (bf ++ [ch]) ch' lx)
  else .leave (after bf ch lx)

/-- One round of the loops of `config_lexer_read`. -/
def configReadRound : Point → Round Point Answer
  | .spaces lx =>
    match lexerGetc lx with
    | (none,lx) => dispatch mode errors nul lx
    | (some ch,lx) => if isspace ch then .again (.spaces lx) else dispatch mode errors ch lx
  | .comment ch lx =>
    if ch = '\n' ∨ ch = nul then .again (.spaces lx)
    else match lexerGetc lx with
      | (none,lx) => .again (.spaces lx)
      | (some ch,lx) => .again (.comment ch lx)
  | .word lno bf ch lx => whileRound isWord (afterWord mode errors lno) (.word lno) bf ch lx
  | .digits lno bf ch lx => whileRound isdigit (afterDigits errors lno) (.digits lno) bf ch lx
  | .string lno bf lx =>
    match lexerGetc lx with
    | (none,lx) => .leave (afterString errors lno bf lx)
    | (some ch,lx) =>
      if ch = nul then .leave (.error (errors ++ [(lno,.unterminatedString)]))
      else if ch = '"' then .leave (afterString errors lno bf lx)
      else .again (.string lno (bf ++ [ch]) lx)

/-- What remains to be done, at most two rounds for each character that can be read. -/
def Point.size : Point → Nat
  | .spaces lx => 2*left lx
  | .comment _ lx => 2*left lx+1
  | .word _ _ _ lx => 2*left lx
  | .digits _ _ _ lx => 2*left lx
  | .string _ _ lx => 2*left lx

/-- What the callback returns from there. -/
def Point.answer : Point → Answer
  | .spaces lx => configLexerRead mode ⟨lx,errors⟩
  | .comment ch lx => configLexerRead mode ⟨skipComment ch lx,errors⟩
  | .word lno bf ch lx =>
    match lexerWhile isWord bf ch lx with
    | (buf,ch,lx) => afterWord mode errors lno buf ch lx
  | .digits lno bf ch lx =>
    match lexerWhile isdigit bf ch lx with
    | (number,ch,lx) => afterDigits errors lno number ch lx
  | .string lno bf lx =>
    match lexerString bf lx with
    | none => .error (errors ++ [(lno,.unterminatedString)])
    | some (str,lx) => afterString errors lno str lx

/-- Skipping, one character at a time. -/
theorem skip_getc (lx : Input) : skip lx =
    match lexerGetc lx with
    | (none,lx') => (nul,lx')
    | (some ch,lx') => if isspace ch then skip lx' else if ch = '#' then skip (skipComment ch lx') else (ch,lx') := by
  rw [skip_eq,skipSpaces]
  split
  · next read =>
    rw [read]
    rfl
  · next ch lx' read =>
    rw [read]
    by_cases blank : isspace ch = true
    · simp only [blank,↓reduceIte]
      rw [skip_eq lx']
    · simp only [blank,Bool.false_eq_true,↓reduceIte]

theorem skipComment_getc (ch : Char) (lx : Input) : skipComment ch lx =
    if ch = '\n' ∨ ch = nul then lx
    else match lexerGetc lx with
      | (none,lx') => lx'
      | (some ch',lx') => skipComment ch' lx' := by
  rw [skipComment]
  by_cases ended : ch = '\n' ∨ ch = nul
  · rw [if_pos ended,if_pos ended]
  · rw [if_neg ended,if_neg ended]
    split
    · next read => rw [read]
    · next read => rw [read]

theorem lexerWhile_getc (p : Char → Bool) (bf : Str) (ch : Char) (lx : Input) : lexerWhile p bf ch lx =
    if p ch then
      match lexerGetc lx with
      | (none,lx') => (bf ++ [ch],nul,lx')
      | (some ch',lx') => lexerWhile p (bf ++ [ch]) ch' lx'
    else (bf,ch,lx) := by
  rw [lexerWhile]
  by_cases more : p ch = true
  · rw [if_pos more,if_pos more]
    split
    · next read => rw [read]
    · next read => rw [read]
  · rw [if_neg more,if_neg more]

theorem lexerString_getc (bf : Str) (lx : Input) : lexerString bf lx =
    match lexerGetc lx with
    | (none,lx') => some (bf,lx')
    | (some ch,lx') =>
      if ch = nul then none else if ch = '"' then some (bf,lx') else lexerString (bf ++ [ch]) lx' := by
  rw [lexerString]
  split
  · next read => rw [read]
  · next read => rw [read]

section
variable {mode errors}

theorem configLexerRead_skip {lx lx' : Input} (same : skip lx = skip lx') :
    configLexerRead mode ⟨lx,errors⟩ = configLexerRead mode ⟨lx',errors⟩ := by
  unfold configLexerRead
  rw [same]

/-- A round that goes on with less to be done and the same answer, or has the answer. -/
def Proceeds (round : Round Point Answer) (size : Nat) (answer : Answer) : Prop :=
  (∃ p, round = .again p ∧ p.size < size ∧ answer = p.answer mode errors) ∨ round = .leave answer

theorem dispatch_proceeds {lx lx' : Input} {ch : Char} (skipped : skip lx = (ch,lx')) (noComment : ch ≠ '#')
    {size : Nat} (more : ch ≠ nul → 2*left lx' < size) :
    @Proceeds mode errors (dispatch mode errors ch lx') size (configLexerRead mode ⟨lx,errors⟩) := by
  unfold configLexerRead
  rw [skipped]
  dsimp only
  rw [dispatch,if_neg noComment]
  by_cases ended : ch = nul
  · exact .inr (by rw [if_pos ended,if_pos ended])
  rw [if_neg ended,if_neg ended]
  by_cases lower : islower ch = true
  · exact .inl ⟨_,if_pos lower,more ended,if_pos lower⟩
  rw [if_neg lower,if_neg lower]
  by_cases digit : isdigit ch = true
  · exact .inl ⟨_,if_pos digit,more ended,if_pos digit⟩
  rw [if_neg digit,if_neg digit]
  by_cases quote : ch = '"'
  · exact .inl ⟨_,if_pos quote,more ended,if_pos quote⟩
  rw [if_neg quote,if_neg quote]
  exact .inr rfl

theorem whileRound_proceeds {p : Char → Bool} {after : Str → Char → Input → Answer} {point : Str → Char → Input → Point}
    (size : ∀ bf ch lx, (point bf ch lx).size = 2*left lx)
    (answer : ∀ bf ch lx, (point bf ch lx).answer mode errors =
      after (lexerWhile p bf ch lx).1 (lexerWhile p bf ch lx).2.1 (lexerWhile p bf ch lx).2.2) (bf : Str)
        (ch : Char) (lx : Input) :
    @Proceeds mode errors (whileRound p after point bf ch lx) (point bf ch lx).size
      ((point bf ch lx).answer mode errors) := by
  have collected := lexerWhile_getc p bf ch lx
  rw [whileRound,answer bf ch lx,size bf ch lx]
  by_cases more : p ch = true
  · rw [if_pos more] at collected ⊢
    cases read : lexerGetc lx with
    | mk got lx' =>
      rw [read] at collected
      cases got with
      | none => exact .inr (by rw [collected])
      | some ch' =>
        have shorter := lexerGetc_left read
        refine .inl ⟨_,rfl,?_,?_⟩
        · rw [size]
          omega
        · rw [collected,answer]
  · rw [if_neg more] at collected ⊢
    exact .inr (by rw [collected])

/-- A round takes a character, or goes from the end of a comment back to the label. -/
theorem configReadRound_proceeds (p : Point) :
    @Proceeds mode errors (configReadRound mode errors p) p.size (p.answer mode errors) := by
  cases p with
  | spaces lx =>
    have skipped := skip_getc lx
    rw [configReadRound]
    cases read : lexerGetc lx with
    | mk got lx' =>
      rw [read] at skipped
      cases got with
      | none => exact dispatch_proceeds skipped (by decide) fun visible => absurd rfl visible
      | some ch =>
        have shorter := lexerGetc_left read
        dsimp only at skipped ⊢
        have smaller : 2*left lx'+1 < (Point.spaces lx).size := by
          simp only [Point.size]
          omega
        by_cases blank : isspace ch = true
        · rw [if_pos blank] at skipped ⊢
          exact .inl ⟨_,rfl,Nat.lt_of_succ_lt smaller,configLexerRead_skip skipped⟩
        rw [if_neg blank] at skipped ⊢
        by_cases comment : ch = '#'
        · rw [if_pos comment] at skipped
          have visible : ch ≠ nul := by rw [comment]; decide
          refine .inl ⟨.comment ch lx',?_,smaller,configLexerRead_skip skipped⟩
          rw [dispatch,if_neg visible,if_pos comment]
        · rw [if_neg comment] at skipped
          exact dispatch_proceeds skipped comment fun _ => Nat.lt_of_succ_lt smaller
  | comment ch lx =>
    have skipped := skipComment_getc ch lx
    rw [configReadRound]
    by_cases ended : ch = '\n' ∨ ch = nul
    · rw [if_pos ended] at skipped ⊢
      exact .inl ⟨_,rfl,Nat.lt_succ_self _,by simp only [Point.answer,skipped]⟩
    · rw [if_neg ended] at skipped ⊢
      cases read : lexerGetc lx with
      | mk got lx' =>
        have le := lexerGetc_le read
        rw [read] at skipped
        cases got with
        | none =>
          refine .inl ⟨_,rfl,?_,by simp only [Point.answer,skipped]⟩
          simp only [Point.size]
          omega
        | some ch' =>
          have shorter := lexerGetc_left read
          refine .inl ⟨_,rfl,?_,by simp only [Point.answer,skipped]⟩
          simp only [Point.size]
          omega
  | word lno bf ch lx =>
    exact @whileRound_proceeds mode errors isWord (afterWord mode errors lno) (.word lno) (fun _ _ _ => rfl)
      (fun _ _ _ => rfl) bf ch lx
  | digits lno bf ch lx =>
    exact @whileRound_proceeds mode errors isdigit (afterDigits errors lno) (.digits lno) (fun _ _ _ => rfl)
      (fun _ _ _ => rfl) bf ch lx
  | string lno bf lx =>
    have collected := lexerString_getc bf lx
    rw [configReadRound,Point.answer]
    cases read : lexerGetc lx with
    | mk got lx' =>
      rw [read] at collected
      cases got with
      | none => exact .inr (by rw [collected])
      | some ch =>
        have shorter := lexerGetc_left read
        dsimp only at collected ⊢
        by_cases ended : ch = nul
        · rw [if_pos ended] at collected ⊢
          exact .inr (by rw [collected])
        rw [if_neg ended] at collected ⊢
        by_cases quote : ch = '"'
        · rw [if_pos quote] at collected ⊢
          exact .inr (by rw [collected])
        · rw [if_neg quote] at collected ⊢
          refine .inl ⟨_,rfl,?_,by rw [collected,Point.answer]⟩
          simp only [Point.size]
          omega

/-- The callback returns after at most two rounds for each character. -/
theorem configLexerRead_returns (s : State) : ∃ n, n ≤ 2*left s.input+1 ∧
    Leaves (configReadRound mode s.errors) (.spaces s.input) n (configLexerRead mode s) :=
  leaves_within (m := Point.size) (f := Point.answer mode s.errors) configReadRound_proceeds (.spaces s.input)

end

/-! ## The read callback of the step file -/

/-- Where `step_lexer_read` is in between two rounds of its loop. -/
inductive StepPoint where
  | start (lx : Input)
  /-- In a value, `ch` being the last character read. -/
  | value (lno : Nat) (bf : Str) (ch : Char) (lx : Input)

/-- What the read callback of the step file returns. -/
abbrev StepAnswer := Except Steps.Error (Item Steps.TokenType × Input)

/-- One round of `step_lexer_read`. -/
def stepReadRound : StepPoint → Round StepPoint StepAnswer
  | .start lx =>
    match lexerGetc lx with
    | (none,_) => .leave (.error .pastEof)
    | (some ch,lx') =>
      if ch = nul then .leave (.ok (.eof lx.lno,lx'))
      else if ch = ',' then .leave (.ok (.token { type := .comma, lno := lx.lno },lx'))
      else if ch = '\n' then .leave (.ok (.token { type := .newline, lno := lx.lno },lx'))
      else .again (.value lx.lno [] ch lx')
  | .value lno bf ch lx =>
    match lexerGetc lx with
    | (none,_) => .leave (.error .pastEof)
    | (some ch',lx') =>
      if ch' = nul then .leave (.error (.unterminatedValue lno))
      else if ch' = ',' ∨ ch' = '\n' then
        .leave (.ok (.token { type := .value, lno := lno, str := bf ++ [ch] },lexerUngetc ch' lx'))
      else .again (.value lno (bf ++ [ch]) ch' lx')

/-- How many characters remain. -/
def StepPoint.size : StepPoint → Nat
  | .start lx => lx.rest.length
  | .value _ _ _ lx => lx.rest.length

/-- What the callback returns from there. -/
def StepPoint.answer : StepPoint → StepAnswer
  | .start lx => Steps.stepLexerRead lx
  | .value lno bf ch lx => Steps.stepLexerValue lno bf ch lx

theorem stepReadRound_proceeds (p : StepPoint) :
    (∃ p', stepReadRound p = .again p' ∧ p'.size < p.size ∧ p.answer = p'.answer) ∨
      stepReadRound p = .leave p.answer := by
  cases p with
  | start lx =>
    rw [stepReadRound,StepPoint.answer,Steps.stepLexerRead]
    cases read : lexerGetc lx with
    | mk got lx' =>
      cases got with
      | none => exact .inr rfl
      | some ch =>
        dsimp only
        by_cases ended : ch = nul
        · exact .inr (by rw [if_pos ended,if_pos ended])
        rw [if_neg ended,if_neg ended]
        by_cases comma : ch = ','
        · exact .inr (by rw [if_pos comma,if_pos comma])
        rw [if_neg comma,if_neg comma]
        by_cases newline : ch = '\n'
        · exact .inr (by rw [if_pos newline,if_pos newline])
        rw [if_neg newline,if_neg newline]
        exact .inl ⟨_,rfl,lexerGetc_length read ended,rfl⟩
  | value lno bf ch lx =>
    rw [stepReadRound,StepPoint.answer,Steps.stepLexerValue]
    split
    · next read =>
      rw [read]
      exact .inr rfl
    · next ch' lx' read =>
      rw [read]
      dsimp only
      by_cases ended : ch' = nul
      · exact .inr (by rw [if_pos ended,dif_pos ended])
      rw [if_neg ended,dif_neg ended]
      by_cases stop : ch' = ',' ∨ ch' = '\n'
      · exact .inr (by rw [if_pos stop,if_pos stop])
      rw [if_neg stop,if_neg stop]
      exact .inl ⟨_,rfl,lexerGetc_length read ended,rfl⟩

/-- The callback returns after at most one round for each character. -/
theorem stepLexerRead_returns (lx : Input) : ∃ n, n ≤ lx.rest.length+1 ∧
    Leaves stepReadRound (.start lx) n (Steps.stepLexerRead lx) :=
  leaves_within (m := StepPoint.size) (f := StepPoint.answer) stepReadRound_proceeds (.start lx)

/-! ## The loop over the tokens -/

section
universe u v
variable {τ : Type} {α : Type u} {ε : Type v}

/-- One round of the loop of `lexer_alloc`, with the list of tokens so far. -/
def allocRound (r : Reader τ α ε) (s : α × List (Item τ)) : Round (α × List (Item τ)) (Except ε (List (Item τ) × α)) :=
  match r.read s.1 with
  | .error e => .leave (.error e)
  | .ok (.eof lno,s') => .leave (.ok (s.2 ++ [.eof lno],s'))
  | .ok (.token tk,s') => .again (s',s.2 ++ [.token tk])

/-- The list `lexer_alloc` makes, in which the end of file is a token. -/
def items (tks : Tokens τ) : List (Item τ) := tks.pending.map .token ++ [.eof tks.eofLno]

/-- The list of tokens is complete after at most one round for each character. -/
theorem lexerAlloc_returns (r : Reader τ α ε) (s : α) : ∃ n, n ≤ r.size s+1 ∧
    Leaves (allocRound r) (s,[]) n ((lexerAlloc r s).map fun p => (items p.1,p.2)) := by
  refine leaves_within (m := fun s => r.size s.1)
    (f := fun s => (lexerAlloc r s.1).map fun p => (s.2 ++ items p.1,p.2)) ?_ (s,[])
  intro s
  obtain ⟨s,before⟩ := s
  rw [allocRound]
  cases read : r.read s with
  | error e =>
    rw [lexerAlloc_error read]
    exact .inr rfl
  | ok out =>
    obtain ⟨item,s'⟩ := out
    cases item with
    | eof lno =>
      rw [lexerAlloc_eof read]
      exact .inr rfl
    | token tk =>
      refine .inl ⟨_,rfl,r.consumes read,?_⟩
      rw [lexerAlloc_token read]
      cases lexerAlloc r s' with
      | error e => rfl
      | ok out => simp [Except.map,items]

end

end Robsd.LexerRounds
