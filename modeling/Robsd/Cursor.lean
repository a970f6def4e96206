import Robsd.LexerRounds

/-!
The cursor of the lexer (lexer.c): a pointer into the list of tokens, which has the
end of file at its end. A call of `lexer_peek` or `lexer_if` takes a step back, and
no call goes past the end of file. What is ahead of the pointer is all that the
parsers get to know (`run_refines`).
-/
namespace Robsd.Cursor
open Robsd.Lexer (Token Item Tokens)
open Robsd.Loops (Leaves)
open Robsd.LexerRounds (items allocRound lexerAlloc_returns)
variable {τ : Type}

/-- `lx_tokens` and `lx_tk`, which is the place of a token in the list or NULL. -/
structure Pointer (τ : Type) where
  tokens : List (Item τ)
  tk : Option Nat

/-- `tk_type`, none being `LEXER_EOF`. -/
def type : Item τ → Option τ
  | .eof _ => none
  | .token tk => some tk.type

/-- `tk_lno`. -/
def lno : Item τ → Nat
  | .eof lno => lno
  | .token tk => tk.lno

/-- `LIST_PREV`, NULL for the first token. -/
def listPrev : Nat → Option Nat
  | 0 => none
  | place+1 => some place

/-- The place that `lexer_next` moves to, if it is there. -/
def place (lx : Pointer τ) : Nat :=
  match lx.tk with
  | none => 0
  | some at_ => if (lx.tokens[at_]?.bind type).isSome then at_+1 else at_

/-- `lexer_next`. -/
def lexerNext (lx : Pointer τ) : Option (Item τ) × Pointer τ :=
  (lx.tokens[place lx]?,{ lx with tk := if place lx < lx.tokens.length then some (place lx) else none })

/-- The token read last is put back. -/
def back (lx : Pointer τ) : Pointer τ := { lx with tk := lx.tk.bind listPrev }

section
variable [DecidableEq τ]

/-- `lexer_expect`, with the line number and the type it reports. -/
def lexerExpect (exp : Option τ) (lx : Pointer τ) : Except (Option (Nat × Option τ)) (Item τ) × Pointer τ :=
  match lexerNext lx with
  | (none,lx) => (.error none,lx)
  | (some tk,lx) => if exp = type tk then (.ok tk,lx) else (.error (some (lno tk,type tk)),lx)

/-- `lexer_peek`. -/
def lexerPeek (want : Option τ) (lx : Pointer τ) : Bool × Pointer τ :=
  match lexerNext lx with
  | (none,lx) => (false,lx)
  | (some tk,lx) => (decide (type tk = want),back lx)

/-- `lexer_if`. -/
def lexerIf (want : Option τ) (lx : Pointer τ) : Option (Item τ) × Pointer τ :=
  match lexerNext lx with
  | (none,lx) => (none,lx)
  | (some tk,lx) => if type tk = want then (some tk,lx) else (none,back lx)

end

/-! ## What is ahead -/

/-- The tokens ahead of the cursor, some being behind it. -/
def Ahead (lx : Pointer τ) (tks : Tokens τ) : Prop :=
  ∃ behind : List (Token τ), lx.tokens = behind.map .token ++ items tks ∧ place lx = behind.length

/-- All tokens are ahead when the lexer is there. -/
theorem ahead_start (tks : Tokens τ) : Ahead ⟨items tks,none⟩ tks := ⟨[],rfl,rfl⟩

/-- The next token, or the end of file again and again. -/
def upcoming (tks : Tokens τ) : Item τ := tks.pending.head?.elim (.eof tks.eofLno) .token

/-- The tokens behind the next one. -/
def passed (tks : Tokens τ) : Tokens τ := { tks with pending := tks.pending.tail }

theorem items_upcoming (tks : Tokens τ) : ∃ more, items tks = upcoming tks :: more := by
  obtain ⟨pending,eofLno⟩ := tks
  cases pending with
  | nil => exact ⟨[],rfl⟩
  | cons tk tks => exact ⟨tks.map .token ++ [.eof eofLno],rfl⟩

theorem place_behind {behind : List (Token τ)} {more : List (Item τ)} (tokens : List (Item τ))
    (shape : tokens = behind.map .token ++ more) : place ⟨tokens,listPrev behind.length⟩ = behind.length := by
  subst shape
  cases last : behind.length with
  | zero => rfl
  | succ at_ =>
    have inside : at_ < behind.length := by omega
    have there : (behind.map Item.token ++ more)[at_]? = some (.token behind[at_]) := by
      rw [List.getElem?_append_left (by simpa using inside)]
      simp [inside]
    simp only [place,listPrev,there]
    rfl

/-- The next token is the first one ahead, with the rest ahead afterwards; it is ahead
    again once it is put back. -/
theorem lexerNext_ahead {lx : Pointer τ} {tks : Tokens τ} (ahead : Ahead lx tks) :
    (lexerNext lx).1 = some (upcoming tks) ∧ Ahead (lexerNext lx).2 (passed tks) ∧
      Ahead (back (lexerNext lx).2) tks := by
  obtain ⟨behind,shape,here⟩ := ahead
  obtain ⟨more,first⟩ := items_upcoming tks
  have there : lx.tokens[behind.length]? = some (upcoming tks) := by
    rw [shape,first,List.getElem?_append_right (by simp)]
    simp
  have inside : behind.length < lx.tokens.length := (List.getElem?_eq_some_iff.mp there).1
  have moved : lexerNext lx = (some (upcoming tks),⟨lx.tokens,some behind.length⟩) := by
    rw [lexerNext,here,there,if_pos inside]
  rw [moved]
  refine ⟨rfl,?_,behind,shape,place_behind lx.tokens shape⟩
  obtain ⟨pending,eofLno⟩ := tks
  cases pending with
  | nil =>
    refine ⟨behind,shape,?_⟩
    rw [place]
    dsimp only
    rw [there]
    rfl
  | cons tk tks =>
    refine ⟨behind ++ [tk],?_,?_⟩
    · rw [shape]
      simp [items,passed]
    · rw [place]
      dsimp only
      rw [there,List.length_append]
      rfl

/-! ## Calls -/

section
variable [DecidableEq τ]

/-- The calls by which parsers move the cursor. -/
inductive Call (τ : Type) where
  | next
  | expect (exp : τ)
  | peek (want : Option τ)
  | when (want : τ)

/-- What they return. -/
inductive Reply (τ : Type) where
  | token (tk : Option (Item τ))
  | expected (out : Except (Option (Nat × Option τ)) (Item τ))
  | same (same : Bool)

/-- A call on the pointer. -/
def Call.pointer (lx : Pointer τ) : Call τ → Reply τ × Pointer τ
  | .next => (.token (lexerNext lx).1,(lexerNext lx).2)
  | .expect exp => (.expected (lexerExpect (some exp) lx).1,(lexerExpect (some exp) lx).2)
  | .peek want => (.same (lexerPeek want lx).1,(lexerPeek want lx).2)
  | .when want => (.token (lexerIf (some want) lx).1,(lexerIf (some want) lx).2)

/-- A call on the tokens ahead. -/
def Call.tokens (tks : Tokens τ) : Call τ → Reply τ × Tokens τ
  | .next => (.token (some (upcoming tks)),passed tks)
  | .expect exp =>
    match Lexer.lexerExpect exp tks with
    | (.ok tk,tks) => (.expected (.ok (.token tk)),tks)
    | (.error u,tks) => (.expected (.error (some (u.lno,u.got))),tks)
  | .peek want => (.same (decide (tks.pending.head?.map Token.type = want)),tks)
  | .when want =>
    match Lexer.lexerIf want tks with
    | some (tk,tks) => (.token (some (.token tk)),tks)
    | none => (.token none,tks)

/-- A call returns the same on the tokens ahead, and leaves those ahead. -/
theorem call_refines (call : Call τ) {lx : Pointer τ} {tks : Tokens τ} (ahead : Ahead lx tks) :
    (call.pointer lx).1 = (call.tokens tks).1 ∧ Ahead (call.pointer lx).2 (call.tokens tks).2 := by
  obtain ⟨found,moved,put⟩ := lexerNext_ahead ahead
  cases step : lexerNext lx with
  | mk got lx' =>
    rw [step] at found moved put
    dsimp only at found moved put
    subst found
    obtain ⟨pending,eofLno⟩ := tks
    cases call with
    | next =>
      rw [Call.pointer,step]
      exact ⟨rfl,moved⟩
    | expect exp =>
      rw [Call.pointer,Call.tokens,lexerExpect,step,Lexer.lexerExpect]
      cases pending with
      | nil => exact ⟨rfl,moved⟩
      | cons tk tks =>
        have read : type (upcoming ⟨tk :: tks,eofLno⟩) = some tk.type := rfl
        dsimp only
        by_cases same : tk.type = exp
        · rw [if_pos (read.trans (congrArg some same)).symm,if_pos same]
          exact ⟨rfl,moved⟩
        · rw [if_neg (fun equal => same (Option.some.inj (equal.trans read).symm)),if_neg same]
          exact ⟨rfl,moved⟩
    | peek want =>
      rw [Call.pointer,Call.tokens,lexerPeek,step]
      cases pending <;> exact ⟨rfl,put⟩
    | when want =>
      rw [Call.pointer,Call.tokens,lexerIf,step,Lexer.lexerIf]
      cases pending with
      | nil => exact ⟨rfl,put⟩
      | cons tk tks =>
        have read : type (upcoming ⟨tk :: tks,eofLno⟩) = some tk.type := rfl
        dsimp only
        by_cases same : tk.type = want
        · rw [if_pos (read.trans (congrArg some same)),if_pos same]
          exact ⟨rfl,moved⟩
        · rw [if_neg (fun equal => same (Option.some.inj (read.symm.trans equal))),if_neg same]
          exact ⟨rfl,put⟩

/-- What calls return one after the other. -/
def replies {σ : Type} (step : σ → Call τ → Reply τ × σ) : σ → List (Call τ) → List (Reply τ)
  | _,[] => []
  | s,call :: calls => (step s call).1 :: replies step (step s call).2 calls

/-- Whatever the parsers call, they cannot tell the pointer from the tokens ahead. -/
theorem run_refines (calls : List (Call τ)) {lx : Pointer τ} {tks : Tokens τ} (ahead : Ahead lx tks) :
    replies Call.pointer lx calls = replies Call.tokens tks calls := by
  induction calls generalizing lx tks with
  | nil => rfl
  | cons call calls ih =>
    obtain ⟨same,later⟩ := call_refines call ahead
    rw [replies,replies,same,ih later]

/-- The lexer with the list that was made for it is as good as the tokens of the input. -/
theorem lexer_refines {α ε : Type} {r : Lexer.Reader τ α ε} {s s' : α} {tks : Tokens τ}
    (alloc : Lexer.lexerAlloc r s = .ok (tks,s')) :
    ∃ n list, Leaves (allocRound r) (s,[]) n (.ok (list,s')) ∧
      ∀ calls, replies Call.pointer ⟨list,none⟩ calls = replies Call.tokens tks calls := by
  obtain ⟨n,_,leaves⟩ := lexerAlloc_returns r s
  rw [alloc] at leaves
  exact ⟨n,items tks,leaves,fun calls => run_refines calls (ahead_start tks)⟩

end
end Robsd.Cursor
