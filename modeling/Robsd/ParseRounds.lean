import Robsd.Loops
import Robsd.Statements
import Robsd.Steps

/-!
The loops of the parsers round by round: the lists and the options of a
configuration, and the header, the rows and the cells of a step file. Every round
that goes on has moved the cursor.
-/
namespace Robsd.ParseRounds
open Robsd.Strings
open Robsd.Lexer
open Robsd.Loops

/-! ## The configuration -/

section
open Robsd.Configuration
open Robsd.ConfigParse
open Robsd.ConfigTokens (configParseStrings_eq)
open Robsd.RegressParse (regressOptions_eq)
open Robsd.Statements (canvasOptions_eq)

/-- One round of the loop of `config_parse_list`. -/
def stringsRound (st : List Str × ParseState) : Round (List Str × ParseState) (ConfigResult × ParseState) :=
  if st.2.peek = some .rbrace then .leave (.append (.list st.1),st.2.advance)
  else match st.2.expect .string with
    | (none,s) => .leave (.fatal,s)
    | (some tk,s) => .again (st.1 ++ [tk.str],s)

/-- One round of the loop of `config_parse_regress`. -/
def regressRound (host : Host) (path : Str) (s : ParseState) : Round ParseState (Bool × ParseState) :=
  match regressOption host path s with
  | none => .leave (true,s)
  | some (false,s) => .leave (false,s)
  | some (true,s) => .again s

/-- One round of the loop of `config_parse_canvas_step`. -/
def canvasRound (host : Host) (st : (List Str × Bool) × ParseState) :
    Round ((List Str × Bool) × ParseState) (Option (List Str × Bool) × ParseState) :=
  match canvasOption host st.1.1 st.1.2 st.2 with
  | none => .leave (some st.1,st.2)
  | some (none,s) => .leave (none,s)
  | some (some read,s) => .again (read,s)

theorem configParseStrings_returns (xs : List Str) (s : ParseState) : ∃ n, n ≤ s.ahead+1 ∧
    Leaves stringsRound (xs,s) n (configParseStrings xs s) := by
  refine leaves_within (m := fun st => st.2.ahead) (f := fun st => configParseStrings st.1 st.2) ?_ (xs,s)
  intro st
  obtain ⟨xs,s⟩ := st
  dsimp only
  rw [stringsRound,configParseStrings_eq]
  by_cases closed : s.peek = some .rbrace
  · exact .inr (by rw [if_pos closed,if_pos closed])
  rw [if_neg closed,if_neg closed]
  cases read : s.expect .string with
  | mk got s' =>
    cases got with
    | none => exact .inr rfl
    | some tk =>
      have shorter := @ParseState.ahead_expect_lt .string s tk (by rw [read])
      rw [read] at shorter
      exact .inl ⟨_,rfl,shorter,rfl⟩

theorem regressOptions_returns (host : Host) (path : Str) (s : ParseState) : ∃ n, n ≤ s.ahead+1 ∧
    Leaves (regressRound host path) s n (regressOptions host path s) := by
  refine leaves_within (m := ParseState.ahead) (f := regressOptions host path) ?_ s
  intro s
  rw [regressRound,regressOptions_eq]
  cases option : regressOption host path s with
  | none => exact .inr rfl
  | some out =>
    obtain ⟨read,s'⟩ := out
    cases read with
    | false => exact .inr rfl
    | true => exact .inl ⟨_,rfl,regressOption_ahead option,rfl⟩

theorem canvasOptions_returns (host : Host) (command : List Str) (parallel : Bool) (s : ParseState) :
    ∃ n, n ≤ s.ahead+1 ∧
    Leaves (canvasRound host) ((command,parallel),s) n (canvasOptions host command parallel s) := by
  refine leaves_within (m := fun st => st.2.ahead) (f := fun st => canvasOptions host st.1.1 st.1.2 st.2) ?_
    ((command,parallel),s)
  intro st
  obtain ⟨⟨command,parallel⟩,s⟩ := st
  dsimp only
  rw [canvasRound,canvasOptions_eq]
  dsimp only
  cases option : canvasOption host command parallel s with
  | none => exact .inr rfl
  | some out =>
    obtain ⟨read,s'⟩ := out
    cases read with
    | none => exact .inr rfl
    | some read => exact .inl ⟨_,rfl,canvasOption_ahead option,rfl⟩

end

/-! ## Interpolation -/

section
universe u
variable {σ : Type u} (lookup : Interpolate.Lookup σ) (ignore : Bool) (inner : Str → σ → Interpolate.Outcome σ)
open Robsd.Interpolate

/-- One round of the loop of `interpolate_inner`, with the text put into the buffer so far. -/
def interpolateRound (st : Str × Str × σ) : Round (Str × Str × σ) (Outcome σ) :=
  match strchr '$' st.2.1 with
  | none => .leave (.ok (st.1 ++ st.2.1),st.2.2)
  | some (before,'{' :: vs) =>
    match strchr '}' vs with
    | none => .leave (.error .expectedClose,st.2.2)
    | some (name,ve) =>
      if name = [] then .leave (.error .emptyName,st.2.2)
      else match lookup name st.2.2 with
        | (none,s) =>
          if ignore then .again (st.1 ++ (before ++ '$' :: '{' :: name ++ ['}']),ve,s)
          else .leave (.error (.unknownVariable name),s)
        | (some value,s) =>
          match inner value s with
          | (.error e,s) => .leave (.error e,s)
          | (.ok out,s) => .again (st.1 ++ (before ++ out),ve,s)
  | some _ => .leave (.error .expectedBrace,st.2.2)

theorem prepend_prepend (text text' : Str) (out : Outcome σ) :
    prepend text (prepend text' out) = prepend (text ++ text') out := by
  obtain ⟨answer,s⟩ := out
  cases answer <;> simp [prepend,Except.map]

theorem interpolateInner_returns (str : Str) (s : σ) : ∃ n, n ≤ str.length+1 ∧
    Leaves (interpolateRound lookup ignore inner) ([],str,s) n (interpolateInner lookup ignore inner str s) := by
  have blank : prepend [] (interpolateInner lookup ignore inner str s) =
    interpolateInner lookup ignore inner str s := by
    cases interpolateInner lookup ignore inner str s with
    | mk answer s => cases answer <;> rfl
  rw [← blank]
  refine leaves_within (m := fun st => st.2.1.length)
    (f := fun st => prepend st.1 (interpolateInner lookup ignore inner st.2.1 st.2.2)) ?_ ([],str,s)
  intro st
  obtain ⟨bf,str,s⟩ := st
  dsimp only
  rw [interpolateRound,interpolateInner_eq]
  dsimp only
  cases found : strchr '$' str with
  | none => exact .inr rfl
  | some parts =>
    obtain ⟨before,rest⟩ := parts
    by_cases brace : ∃ vs, rest = '{' :: vs
    · obtain ⟨vs,rfl⟩ := brace
      simp only
      cases closed : strchr '}' vs with
      | none => exact .inr rfl
      | some parts =>
        obtain ⟨name,ve⟩ := parts
        have smaller : ve.length < str.length := by
          have := strchr_length found
          have := strchr_length closed
          simp only [List.length_cons] at *
          omega
        dsimp only
        by_cases empty : name = []
        · exact .inr (by rw [if_pos empty,if_pos empty]; rfl)
        rw [if_neg empty,if_neg empty]
        cases lookup name s with
        | mk value s =>
          cases value with
          | none =>
            cases ignore with
            | false => exact .inr rfl
            | true => exact .inl ⟨_,rfl,smaller,prepend_prepend _ _ _⟩
          | some value =>
            dsimp only
            cases inner value s with
            | mk out s =>
              cases out with
              | error e => exact .inr rfl
              | ok out => exact .inl ⟨_,rfl,smaller,prepend_prepend _ _ _⟩
    · refine .inr ?_
      cases rest with
      | nil => rfl
      | cons c vs =>
        have other : c ≠ '{' := fun same => brace ⟨vs,by rw [same]⟩
        simp [other,prepend,Except.map]

end

/-! ## The step file -/

section
open Robsd.Steps

/-- One round of the loop of `steps_parse_header`. -/
def headerRound (st : List Str × Tokens TokenType) :
    Round (List Str × Tokens TokenType) (Except Error (List Str × Tokens TokenType)) :=
  match lexerExpect .value st.2 with
  | (.error u,_) => .leave (.error (.unexpected u))
  | (.ok col,lx₁) =>
    match lexerIf .newline lx₁ with
    | some (_,lx₂) => .leave (.ok (st.1 ++ [col.str],lx₂))
    | none =>
      match lexerExpect .comma lx₁ with
      | (.error u,_) => .leave (.error (.unexpected u))
      | (.ok _,lx₂) => .again (st.1 ++ [col.str],lx₂)

/-- The variables of the loop of `steps_parse_row`. -/
structure Cells where
  col : Nat
  st : Step
  lno : Nat
  lx : Tokens TokenType

/-- One round of the loop of `steps_parse_row`. -/
def cellRound (columns : List Str) (c : Cells) : Round Cells (Except Error (Step × Nat × Tokens TokenType)) :=
  match lexerIf .comma c.lx with
  | some (_,lx₁) => .again { c with col := c.col+1, lx := lx₁ }
  | none =>
    match lexerExpect .value c.lx with
    | (.error u,_) => .leave (.error (.unexpected u))
    | (.ok val,lx₁) =>
      let lno := if c.lno = 0 then val.lno else c.lno
      match columns[c.col]? with
      | none => .leave (.error (.unknownColumn val.lno c.col))
      | some key =>
        if (fieldDefinitionFindByName key).isNone then .leave (.error (.unknownField val.lno key))
        else match stepSetField c.st key val.str with
          | .error e => .leave (.error e)
          | .ok st =>
            match lexerIf .newline lx₁ with
            | some (_,lx₂) => .leave (.ok (st,lno,lx₂))
            | none =>
              match lexerExpect .comma lx₁ with
              | (.error u,_) => .leave (.error (.unexpected u))
              | (.ok _,lx₂) => .again ⟨c.col+1,st,lno,lx₂⟩

/-- One round of the loop of `steps_parse` over the rows. -/
def rowRound (columns : List Str) (st : List Step × Tokens TokenType) :
    Round (List Step × Tokens TokenType) (Except Error (List Step)) :=
  if lexerPeekEof st.2 then .leave (.ok st.1)
  else match stepsParseRow columns st.2 with
    | .error e => .leave (.error e)
    | .ok (row,lx) => .again (st.1 ++ [row],lx)

theorem stepsParseHeaderLoop_returns (columns : List Str) (lx : Tokens TokenType) : ∃ n, n ≤ lx.pending.length+1 ∧
    Leaves headerRound (columns,lx) n (stepsParseHeaderLoop columns lx) := by
  refine leaves_within (m := fun st => st.2.pending.length)
    (f := fun st => stepsParseHeaderLoop st.1 st.2) ?_ (columns,lx)
  intro st
  obtain ⟨columns,lx⟩ := st
  dsimp only
  rw [headerRound,stepsParseHeaderLoop_eq]
  cases value : lexerExpect .value lx with
  | mk got lx₁ =>
    cases got with
    | error u => exact .inr rfl
    | ok col =>
      dsimp only
      cases lexerIf .newline lx₁ with
      | some _ => exact .inr rfl
      | none =>
        dsimp only
        cases comma : lexerExpect .comma lx₁ with
        | mk got lx₂ =>
          cases got with
          | error u => exact .inr rfl
          | ok _ =>
            have shorter := lexerExpect_length value
            have shorter' := lexerExpect_length comma
            exact .inl ⟨_,rfl,by dsimp only; omega,rfl⟩

theorem stepsParseRowLoop_returns (columns : List Str) (c : Cells) : ∃ n, n ≤ c.lx.pending.length+1 ∧
    Leaves (cellRound columns) c n (stepsParseRowLoop columns c.col c.st c.lno c.lx) := by
  refine leaves_within (m := fun c => c.lx.pending.length)
    (f := fun c => stepsParseRowLoop columns c.col c.st c.lno c.lx) ?_ c
  intro c
  obtain ⟨col,st,lno,lx⟩ := c
  dsimp only
  rw [cellRound,stepsParseRowLoop_eq]
  dsimp only
  cases skip : lexerIf .comma lx with
  | some out => exact .inl ⟨_,rfl,lexerIf_length skip,rfl⟩
  | none =>
    dsimp only
    cases value : lexerExpect .value lx with
    | mk got lx₁ =>
      cases got with
      | error u => exact .inr rfl
      | ok val =>
        dsimp only
        cases columns[col]? with
        | none => exact .inr rfl
        | some key =>
          dsimp only
          by_cases unknown : (fieldDefinitionFindByName key).isNone = true
          · exact .inr (by rw [if_pos unknown,if_pos unknown])
          rw [if_neg unknown,if_neg unknown]
          cases stepSetField st key val.str with
          | error e => exact .inr rfl
          | ok st =>
            dsimp only
            cases lexerIf .newline lx₁ with
            | some _ => exact .inr rfl
            | none =>
              dsimp only
              cases comma : lexerExpect .comma lx₁ with
              | mk got lx₂ =>
                cases got with
                | error u => exact .inr rfl
                | ok _ =>
                  have shorter := lexerExpect_length value
                  have shorter' := lexerExpect_length comma
                  exact .inl ⟨_,rfl,by dsimp only; omega,rfl⟩

theorem stepsParseRows_returns (columns : List Str) (lx : Tokens TokenType) : ∃ n, n ≤ lx.pending.length+1 ∧
    Leaves (rowRound columns) ([],lx) n (stepsParseRows columns lx) := by
  have blank : (stepsParseRows columns lx).map ([] ++ ·) = stepsParseRows columns lx := by
    cases stepsParseRows columns lx <;> rfl
  rw [← blank]
  refine leaves_within (m := fun st => st.2.pending.length)
    (f := fun st => (stepsParseRows columns st.2).map (st.1 ++ ·)) ?_ ([],lx)
  intro st
  obtain ⟨before,lx⟩ := st
  dsimp only
  rw [rowRound,stepsParseRows_eq]
  by_cases ended : lexerPeekEof lx = true
  · exact .inr (by rw [if_pos ended,if_pos ended]; simp [Except.map])
  rw [if_neg ended,if_neg ended]
  dsimp only
  cases row : stepsParseRow columns lx with
  | error e => exact .inr rfl
  | ok out =>
    refine .inl ⟨_,rfl,stepsParseRow_length row,?_⟩
    dsimp only
    cases stepsParseRows columns out.2 <;> simp [Except.map]

end
end Robsd.ParseRounds
