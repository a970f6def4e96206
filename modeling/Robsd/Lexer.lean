import Robsd.Strings

/-!
The lexer shared by the step file and the configuration (lexer.c): reading of
characters, the loop that collects tokens, and the cursor the parsers move.
The end of file is not a token here but the end of the list, so that a token
list ends in its only end of file by construction.
-/
namespace Robsd.Lexer
open Robsd.Strings
universe u v
variable {τ : Type} {α : Type u} {ε : Type v}

/-- A token with its line number and its value, as far as its type has one. -/
structure Token (τ : Type) where
  type : τ
  lno : Nat
  str : Str := []
  int : Int := 0
  deriving DecidableEq, Repr

/-- What one call of the read callback emits. -/
inductive Item (τ : Type) where
  | eof (lno : Nat)
  | token (tk : Token τ)

/-- The part of `struct lexer` that reading changes: the input from the current
    offset on, the line number and how often the end of the input was read. -/
structure Input where
  rest : Str
  lno : Nat
  eof : Nat
  deriving DecidableEq, Repr

/-- The state in which `lexer_alloc` starts to read. -/
def Input.start (buf : Str) : Input := ⟨buf,1,0⟩

/-- `lexer_getc`: the end of the input reads as NUL once and fails afterwards. -/
def lexerGetc (lx : Input) : Option Char × Input :=
  match lx.rest with
  | [] => (if lx.eof = 0 then some nul else none,{ lx with eof := lx.eof+1 })
  | c :: cs => (some c,{ lx with rest := cs, lno := if c = '\n' then lx.lno+1 else lx.lno })

/-- `lexer_ungetc`, which is only called with the character read last. -/
def lexerUngetc (ch : Char) (lx : Input) : Input :=
  if 0 < lx.eof then lx
  else { lx with rest := ch :: lx.rest, lno := if ch = '\n' ∧ 1 < lx.lno then lx.lno-1 else lx.lno }

@[simp] theorem lexerGetc_nil (lno eof : Nat) :
    lexerGetc ⟨[],lno,eof⟩ = (if eof = 0 then some nul else none,⟨[],lno,eof+1⟩) := rfl

@[simp] theorem lexerGetc_cons (c : Char) (cs : Str) (lno eof : Nat) :
    lexerGetc ⟨c :: cs,lno,eof⟩ = (some c,⟨cs,if c = '\n' then lno+1 else lno,eof⟩) := rfl

/-- Reading anything but NUL consumes it. -/
theorem lexerGetc_length {lx lx' : Input} {c : Char} (read : lexerGetc lx = (some c,lx')) (notEnd : c ≠ nul) :
    lx'.rest.length < lx.rest.length := by
  obtain ⟨rest,lno,eof⟩ := lx
  cases rest with
  | nil =>
    simp only [lexerGetc_nil,Prod.mk.injEq] at read
    split at read
    · exact absurd (Option.some.inj read.1).symm notEnd
    · cases read.1
  | cons d ds =>
    simp only [lexerGetc_cons,Prod.mk.injEq] at read
    simp [← read.2]

theorem lexerUngetc_length (ch : Char) (lx : Input) : (lexerUngetc ch lx).rest.length ≤ lx.rest.length+1 := by
  unfold lexerUngetc
  split <;> simp

/-- The read callback on a state `α` that contains the input. Each token takes
    at least one character of it. -/
structure Reader (τ : Type) (α : Type u) (ε : Type v) where
  size : α → Nat
  read : α → Except ε (Item τ × α)
  consumes : ∀ {s s' tk}, read s = .ok (.token tk,s') → size s' < size s

/-- The tokens ahead of the cursor and the line number of the end of file. -/
structure Tokens (τ : Type) where
  pending : List (Token τ)
  eofLno : Nat
  deriving DecidableEq, Repr

/-- The loop of `lexer_alloc`. -/
def lexerAlloc (r : Reader τ α ε) (s : α) : Except ε (Tokens τ × α) :=
  match _run : r.read s with
  | .error e => .error e
  | .ok (.eof lno,s) => .ok (⟨[],lno⟩,s)
  | .ok (.token tk,s) =>
    match lexerAlloc r s with
    | .error e => .error e
    | .ok (tks,s) => .ok ({ tks with pending := tk :: tks.pending },s)
termination_by r.size s
decreasing_by exact r.consumes _run

theorem lexerAlloc_error {r : Reader τ α ε} {s : α} {e : ε} (run : r.read s = .error e) :
    lexerAlloc r s = .error e := by
  rw [lexerAlloc]
  split <;> simp_all

theorem lexerAlloc_eof {r : Reader τ α ε} {s s' : α} {lno : Nat} (run : r.read s = .ok (.eof lno,s')) :
    lexerAlloc r s = .ok (⟨[],lno⟩,s') := by
  rw [lexerAlloc]
  split <;> simp_all

theorem lexerAlloc_token {r : Reader τ α ε} {s s' : α} {tk : Token τ} (run : r.read s = .ok (.token tk,s')) :
    lexerAlloc r s =
      (lexerAlloc r s').map fun p => ({ p.1 with pending := tk :: p.1.pending },p.2) := by
  rw [lexerAlloc]
  split
  · simp_all
  · simp_all
  · next tk' s'' same =>
    rw [run] at same
    cases same
    cases lexerAlloc r s' <;> rfl

/-- What holds of every token the callback emits holds of every token of the
    list, where the callback may rely on what it preserves of its state. -/
theorem lexerAlloc_forall {r : Reader τ α ε} {I : α → Prop} {P : Token τ → Prop}
    (each : ∀ {s s' tk}, I s → r.read s = .ok (.token tk,s') → P tk ∧ I s') :
    ∀ {s : α} {tks : Tokens τ} {s' : α}, I s → lexerAlloc r s = .ok (tks,s') → ∀ tk ∈ tks.pending, P tk := by
  intro s
  induction size : r.size s using Nat.strongRecOn generalizing s with
  | _ n ih =>
    intro tks s' before run
    cases emitted : r.read s with
    | error e => rw [lexerAlloc_error emitted] at run; cases run
    | ok item =>
      obtain ⟨item,next⟩ := item
      cases item with
      | eof lno => rw [lexerAlloc_eof emitted] at run; cases run; simp
      | token tk =>
        rw [lexerAlloc_token emitted] at run
        obtain ⟨here,kept⟩ := each before emitted
        cases later : lexerAlloc r next with
        | error e => rw [later] at run; cases run
        | ok p =>
          rw [later] at run
          cases run
          have smaller : r.size next < n := size ▸ r.consumes emitted
          intro tk' member
          rcases List.mem_cons.mp member with same | more
          · rw [same]; exact here
          · exact ih (r.size next) smaller rfl kept later tk' more

/-! ## The cursor -/

section
variable [DecidableEq τ]

/-- What `lexer_expect` reports: the type it wants and what it got, none being
    the end of file. -/
structure Unexpected (τ : Type) where
  lno : Nat
  want : τ
  got : Option τ
  deriving DecidableEq, Repr

/-- The text of the report, given the serialize callback. -/
def Unexpected.text (serialize : τ → String) (u : Unexpected τ) : String :=
  "want " ++ serialize u.want ++ ", got " ++ (u.got.elim "EOF" serialize)

/-- `lexer_peek` for the end of file. -/
def lexerPeekEof (lx : Tokens τ) : Bool := lx.pending.isEmpty

/-- `lexer_if`: the next token, provided it has the given type. -/
def lexerIf (type : τ) (lx : Tokens τ) : Option (Token τ × Tokens τ) :=
  match lx.pending with
  | [] => none
  | tk :: tks => if tk.type = type then some (tk,{ lx with pending := tks }) else none

/-- `lexer_expect`, which moves past the next token whatever its type. -/
def lexerExpect (type : τ) (lx : Tokens τ) : Except (Unexpected τ) (Token τ) × Tokens τ :=
  match lx.pending with
  | [] => (.error ⟨lx.eofLno,type,none⟩,lx)
  | tk :: tks =>
    (if tk.type = type then .ok tk else .error ⟨tk.lno,type,some tk.type⟩,{ lx with pending := tks })

theorem lexerIf_length {type : τ} {lx lx' : Tokens τ} {tk : Token τ} (next : lexerIf type lx = some (tk,lx')) :
    lx'.pending.length < lx.pending.length := by
  unfold lexerIf at next
  split at next
  · cases next
  · next shape =>
    split at next
    · cases next
      simp [shape]
    · cases next

theorem lexerExpect_length {type : τ} {lx lx' : Tokens τ} {tk : Token τ}
    (next : lexerExpect type lx = (.ok tk,lx')) : lx'.pending.length < lx.pending.length := by
  unfold lexerExpect at next
  split at next
  · cases next
  · next shape =>
    simp only [Prod.mk.injEq] at next
    simp [shape,← next.2]

/-- `lexer_expect` succeeds exactly where `lexer_if` does, with the same token. -/
theorem lexerExpect_ok {type : τ} {lx lx' : Tokens τ} {tk : Token τ} :
    lexerExpect type lx = (.ok tk,lx') ↔ lexerIf type lx = some (tk,lx') := by
  obtain ⟨pending,lno⟩ := lx
  cases pending with
  | nil => simp [lexerExpect,lexerIf]
  | cons t ts => by_cases same : t.type = type <;> simp [lexerExpect,lexerIf,same]

theorem lexerIf_some {type : τ} {lx lx' : Tokens τ} {tk : Token τ} :
    lexerIf type lx = some (tk,lx') ↔ tk.type = type ∧ lx = { lx' with pending := tk :: lx'.pending } := by
  obtain ⟨pending,lno⟩ := lx
  obtain ⟨pending',lno'⟩ := lx'
  cases pending with
  | nil => simp [lexerIf]
  | cons t ts =>
    by_cases same : t.type = type
    · simp only [lexerIf,same,↓reduceIte,Option.some.injEq,Prod.mk.injEq,Tokens.mk.injEq,List.cons.injEq]
      constructor
      · rintro ⟨rfl,rfl,rfl⟩; exact ⟨same,⟨rfl,rfl⟩,rfl⟩
      · rintro ⟨_,⟨rfl,rfl⟩,rfl⟩; exact ⟨rfl,rfl,rfl⟩
    · simp only [lexerIf,same,↓reduceIte,Tokens.mk.injEq,List.cons.injEq]
      constructor
      · rintro ⟨⟩
      · rintro ⟨other,⟨rfl,_⟩,_⟩; exact absurd other same

end
end Robsd.Lexer
