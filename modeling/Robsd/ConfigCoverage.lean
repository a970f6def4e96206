import Robsd.ConfigLayout
import Robsd.StepCoverage
import Robsd.Acceptance

/-!
How much of a configuration an accepted parse accounts for: all of it, unless
there is a NUL outside of the comments, where the lexer takes the file to end.
-/
namespace Robsd.ConfigCoverage
open Robsd.Strings
open Robsd.Lexer
open Robsd.Steps (stepsParse)
open Robsd.StepFormat (Row)
open Robsd.StepReading (columns)
open Robsd.Modes
open Robsd.ConfigLexer
open Robsd.ConfigLayout
open Robsd.Configuration
open Robsd.ConfigParse
open Robsd.Statements
open Robsd.Acceptance
variable {mode : Mode}

/-- What a character belongs to. -/
inductive Place where
  | plain
  | comment
  | string

/-- There is a NUL outside of the comments. One inside ends the comment as a newline does. -/
def bare : Place → Str → Bool
  | _,[] => false
  | .plain,c :: cs => c = nul || bare (if c = '#' then .comment else if c = '"' then .string else .plain) cs
  | .comment,c :: cs => bare (if c = '\n' ∨ c = nul then .plain else .comment) cs
  | .string,c :: cs => c = nul || bare (if c = '"' then .plain else .string) cs

/-- The characters a token is made of and what it says. -/
inductive Spells (mode : Mode) : Str → Datum → Prop
  | word {c : Char} {w : Str} (lno : Nat) (lower : islower c = true) (all : ∀ d ∈ w, isWord d = true) :
      Spells mode (c :: w) (datum (wordToken mode lno (c :: w)))
  | integer {c : Char} {digits : Str} (digit : isdigit c = true) (all : ∀ d ∈ digits, isdigit d = true) :
      Spells mode (c :: digits) (.integer ((c :: digits).foldl addDigit (false,0)).2)
  | string {s : Str} (noQuote : '"' ∉ s) (noNul : nul ∉ s) : Spells mode ('"' :: s ++ ['"']) (.string s)
  | symbol {c : Char} (lno : Nat) (visible : c ≠ nul ∧ c ≠ '#' ∧ c ≠ '"') :
      Spells mode [c] (datum { type := tokenTypeLookup mode [c] .unknown, lno := lno })

/-- The text consists of spaces, comments and what the tokens are made of. -/
inductive Covers (mode : Mode) : Str → List Datum → Prop
  | nil : Covers mode [] []
  | space {c : Char} {rest : Str} {ds : List Datum} (blank : isspace c = true) (more : Covers mode rest ds) :
      Covers mode (c :: rest) ds
  | comment {text rest : Str} {stop : Char} {ds : List Datum} (single : '\n' ∉ text ∧ nul ∉ text)
      (stops : stop = '\n' ∨ stop = nul) (more : Covers mode rest ds) : Covers mode ('#' :: text ++ stop :: rest) ds
  | lastComment {text : Str} (single : '\n' ∉ text ∧ nul ∉ text) : Covers mode ('#' :: text) []
  | token {text rest : Str} {d : Datum} {ds : List Datum} (spells : Spells mode text d) (more : Covers mode rest ds) :
      Covers mode (text ++ rest) (d :: ds)

/-! ## NUL outside of comments -/

theorem bare_plain {c : Char} (visible : c ≠ nul ∧ c ≠ '#' ∧ c ≠ '"') (rest : Str) :
    bare .plain (c :: rest) = bare .plain rest := by
  simp [bare,visible]

theorem bare_plain_append : ∀ {s : Str}, (∀ c ∈ s, c ≠ nul ∧ c ≠ '#' ∧ c ≠ '"') → ∀ rest,
    bare .plain (s ++ rest) = bare .plain rest
  | [],_,_ => rfl
  | c :: s,all,rest => by
    rw [List.cons_append,bare_plain (all c (by simp)),bare_plain_append (fun d member => all d (by simp [member])) rest]

theorem bare_comment {stop : Char} (stops : stop = '\n' ∨ stop = nul) (rest : Str) : ∀ {text : Str},
    '\n' ∉ text → nul ∉ text → bare .comment (text ++ stop :: rest) = bare .plain rest
  | [],_,_ => by simp only [List.nil_append,bare,if_pos stops]
  | c :: text,single,noNul => by
    simp only [List.mem_cons,not_or] at single noNul
    have inside : ¬ (c = '\n' ∨ c = nul) := fun either => either.elim (fun h => single.1 h.symm) fun h => noNul.1 h.symm
    rw [List.cons_append,bare,if_neg inside,bare_comment stops rest single.2 noNul.2]

theorem bare_lastComment : ∀ {text : Str}, '\n' ∉ text → nul ∉ text → bare .comment text = false
  | [],_,_ => rfl
  | c :: text,single,noNul => by
    simp only [List.mem_cons,not_or] at single noNul
    have inside : ¬ (c = '\n' ∨ c = nul) := fun either => either.elim (fun h => single.1 h.symm) fun h => noNul.1 h.symm
    rw [bare,if_neg inside,bare_lastComment single.2 noNul.2]

theorem bare_string (rest : Str) : ∀ {s : Str}, '"' ∉ s → nul ∉ s → bare .string (s ++ '"' :: rest) = bare .plain rest
  | [],_,_ => by simp [bare,show '"' ≠ nul from by decide]
  | c :: s,noQuote,noNul => by
    simp only [List.mem_cons,not_or] at noQuote noNul
    simp only [List.cons_append,bare,Ne.symm noNul.1,Ne.symm noQuote.1,decide_false,Bool.false_or,↓reduceIte]
    exact bare_string rest noQuote.2 noNul.2

theorem visible_of_isspace {c : Char} (blank : isspace c = true) : c ≠ nul ∧ c ≠ '#' ∧ c ≠ '"' := by
  refine ⟨?_,?_,?_⟩ <;> rintro rfl <;> revert blank <;> decide

theorem visible_of_isWord {c : Char} (inside : isWord c = true) : c ≠ nul ∧ c ≠ '#' ∧ c ≠ '"' := by
  refine ⟨?_,?_,?_⟩ <;> rintro rfl <;> revert inside <;> decide

theorem spells_bare {text : Str} {d : Datum} (spells : Spells mode text d) (rest : Str) :
    bare .plain (text ++ rest) = bare .plain rest := by
  cases spells with
  | @word c w lno lower all =>
    refine bare_plain_append ?_ rest
    intro d member
    rcases List.mem_cons.mp member with rfl | later
    · exact visible_of_isWord (by simp [isWord,lower])
    · exact visible_of_isWord (all d later)
  | @integer c digits digit all =>
    refine bare_plain_append ?_ rest
    intro d member
    rcases List.mem_cons.mp member with rfl | later
    · exact visible_of_isWord (by simp [isWord,digit])
    · exact visible_of_isWord (by simp [isWord,all d later])
  | @string s noQuote noNul =>
    have shape : '"' :: s ++ ['"'] ++ rest = '"' :: (s ++ '"' :: rest) := by simp
    rw [shape]
    simp only [bare,show '"' ≠ nul from by decide,show '"' ≠ '#' from by decide,decide_false,Bool.false_or,↓reduceIte]
    exact bare_string rest noQuote noNul
  | symbol lno visible => exact bare_plain visible rest

/-- No NUL stands outside of the comments of a text that is covered. -/
theorem covers_bare {text : Str} {ds : List Datum} (covers : Covers mode text ds) : bare .plain text = false := by
  induction covers with
  | nil => rfl
  | space blank _ ih => rw [bare_plain (visible_of_isspace blank),ih]
  | comment single stops _ ih =>
    rw [List.cons_append,bare]
    simp only [show '#' ≠ nul from by decide,decide_false,Bool.false_or,↓reduceIte]
    rw [bare_comment stops _ single.1 single.2,ih]
  | lastComment single =>
    rw [bare]
    simp only [show '#' ≠ nul from by decide,decide_false,Bool.false_or,↓reduceIte]
    exact bare_lastComment single.1 single.2
  | token spells _ ih => rw [spells_bare spells,ih]

/-! ## Spaces and comments -/

/-- A comment ends at a newline, at a NUL or with the file. -/
theorem comment_split : ∀ s : Str, ('\n' ∉ s ∧ nul ∉ s) ∨
    ∃ text stop rest, s = text ++ stop :: rest ∧ ('\n' ∉ text ∧ nul ∉ text) ∧ (stop = '\n' ∨ stop = nul)
  | [] => .inl ⟨by simp,by simp⟩
  | c :: s => by
    by_cases stops : c = '\n' ∨ c = nul
    · exact .inr ⟨[],c,s,rfl,⟨by simp,by simp⟩,stops⟩
    rw [not_or] at stops
    rcases comment_split s with ⟨single,noNul⟩ | ⟨text,stop,rest,rfl,⟨single,noNul⟩,stops'⟩
    · exact .inl ⟨by simp [single,Ne.symm stops.1],by simp [noNul,Ne.symm stops.2]⟩
    · exact .inr ⟨c :: text,stop,rest,rfl,⟨by simp [single,Ne.symm stops.1],by simp [noNul,Ne.symm stops.2]⟩,stops'⟩

theorem skipComment_end : ∀ (text : Str) (c : Char) (lno : Nat), '\n' ∉ c :: text → nul ∉ c :: text →
    ∃ lno', skipComment c ⟨text,lno,0⟩ = ⟨[],lno',1⟩
  | [],c,lno,single,noNul => by
    simp only [List.mem_cons,List.not_mem_nil,or_false] at single noNul
    refine ⟨lno,?_⟩
    rw [skipComment,if_neg (by rw [not_or]; exact ⟨Ne.symm single,Ne.symm noNul⟩)]
    change skipComment nul ⟨[],lno,1⟩ = _
    rw [skipComment]
    simp
  | d :: text,c,lno,single,noNul => by
    rw [List.mem_cons,not_or] at single noNul
    obtain ⟨lno',run⟩ := skipComment_end text d (if d = '\n' then lno+1 else lno) single.2 noNul.2
    refine ⟨lno',?_⟩
    rw [skipComment,if_neg (by rw [not_or]; exact ⟨Ne.symm single.1,Ne.symm noNul.1⟩)]
    simpa only [lexerGetc_cons] using run

theorem skipComment_stop {stop : Char} {rest : Str} (stops : stop = '\n' ∨ stop = nul) :
    ∀ (text : Str) (c : Char) (lno : Nat), '\n' ∉ c :: text → nul ∉ c :: text →
      ∃ lno', skipComment c ⟨text ++ stop :: rest,lno,0⟩ = ⟨rest,lno',0⟩
  | [],c,lno,single,noNul => by
    simp only [List.mem_cons,List.not_mem_nil,or_false] at single noNul
    refine ⟨if stop = '\n' then lno+1 else lno,?_⟩
    rw [skipComment,if_neg (by rw [not_or]; exact ⟨Ne.symm single,Ne.symm noNul⟩)]
    simp only [List.nil_append,lexerGetc_cons]
    rw [skipComment,if_pos stops]
  | d :: text,c,lno,single,noNul => by
    rw [List.mem_cons,not_or] at single noNul
    obtain ⟨lno',run⟩ := (@skipComment_stop stop rest) stops text d (if d = '\n' then lno+1 else lno) single.2 noNul.2
    refine ⟨lno',?_⟩
    rw [skipComment,if_neg (by rw [not_or]; exact ⟨Ne.symm single.1,Ne.symm noNul.1⟩)]
    simpa only [List.cons_append,lexerGetc_cons] using run

/-- At the end of the file nothing but the end is read. -/
theorem skip_ended (lno eof : Nat) : skip ⟨[],lno,eof+1⟩ = (nul,⟨[],lno,eof+2⟩) := by
  have spaces : skipSpaces ⟨[],lno,eof+1⟩ = (nul,⟨[],lno,eof+2⟩) := by
    rw [skipSpaces]
    simp
  rw [skip_eq,spaces,if_neg (show nul ≠ '#' from by decide)]

/-- What is skipped are spaces and comments. -/
theorem skip_covers (text : Str) (lno : Nat) (whole : bare .plain text = false) :
    (skip ⟨text,lno,0⟩).1 = nul ∧ Covers mode text [] ∨
    ∃ c rest lno', skip ⟨text,lno,0⟩ = (c,⟨rest,lno',0⟩) ∧ c ≠ nul ∧ c ≠ '#' ∧ bare .plain (c :: rest) = false ∧
      ∀ ds, Covers mode (c :: rest) ds → Covers mode text ds := by
  induction size : text.length using Nat.strongRecOn generalizing text lno with
  | _ n ih =>
    cases text with
    | nil => exact .inl ⟨by rw [skip_nil],.nil⟩
    | cons c cs =>
      have notNul : c ≠ nul := by
        rintro rfl
        simp [bare] at whole
      by_cases blank : isspace c = true
      · rw [bare_plain (visible_of_isspace blank)] at whole
        rw [skip_eq,skipSpaces_space blank,← skip_eq]
        rcases ih cs.length (by simp [← size]) cs _ whole rfl with
          ⟨ended,covers⟩ | ⟨d,rest,lno',run,notNul',noComment,whole',covers⟩
        · exact .inl ⟨ended,.space blank covers⟩
        · exact .inr ⟨d,rest,lno',run,notNul',noComment,whole',fun ds more => .space blank (covers ds more)⟩
      replace blank : isspace c = false := by simpa using blank
      by_cases comment : c = '#'
      · subst comment
        rw [skip_eq,skipSpaces_char (by decide),if_pos rfl]
        have commented : bare .comment cs = false := by
          simpa [bare,show '#' ≠ nul from by decide] using whole
        rcases comment_split cs with ⟨single,noNul⟩ | ⟨text,stop,rest,rfl,⟨single,noNul⟩,stops⟩
        · obtain ⟨lno',run⟩ :=
            skipComment_end cs '#' lno (by simp [single]) (by simp [noNul,show nul ≠ '#' from by decide])
          rw [run,skip_ended]
          exact .inl ⟨rfl,.lastComment ⟨single,noNul⟩⟩
        · obtain ⟨lno',run⟩ := (@skipComment_stop _ rest) stops text '#' lno (by simp [single])
            (by simp [noNul,show nul ≠ '#' from by decide])
          rw [bare_comment stops rest single noNul] at commented
          rw [run]
          rcases ih rest.length (by simp [← size]; omega) rest lno' commented rfl with
            ⟨ended,covers⟩ | ⟨d,rest',lno'',run',notNul',noComment,whole',covers⟩
          · exact .inl ⟨ended,.comment ⟨single,noNul⟩ stops covers⟩
          · exact .inr ⟨d,rest',lno'',run',notNul',noComment,whole',fun ds more =>
              .comment ⟨single,noNul⟩ stops (covers ds more)⟩
      · exact .inr ⟨c,cs,lno,skip_char blank comment,notNul,comment,whole,fun _ => id⟩

/-! ## Tokens -/

/-- What is collected goes up to another character or the end of the file. -/
theorem lexerWhile_text {p : Char → Bool} (noNul : p nul = false) : ∀ (s bf : Str) (c : Char) (lno : Nat), p c = true →
    ∃ w lno', (∀ d ∈ w, p d = true) ∧
      (s = w ∧ lexerWhile p bf c ⟨s,lno,0⟩ = (bf ++ c :: w,nul,⟨[],lno',1⟩) ∨
        ∃ stop rest, s = w ++ stop :: rest ∧ lexerWhile p bf c ⟨s,lno,0⟩ = (bf ++ c :: w,stop,⟨rest,lno',0⟩))
  | [],bf,c,lno,first => by
    refine ⟨[],lno,by simp,.inl ⟨rfl,?_⟩⟩
    rw [lexerWhile,if_pos first]
    change lexerWhile p (bf ++ [c]) nul ⟨[],lno,1⟩ = _
    rw [lexerWhile,if_neg (by rw [noNul]; exact Bool.false_ne_true)]
  | d :: s,bf,c,lno,first => by
    have next : lexerWhile p bf c ⟨d :: s,lno,0⟩ =
      lexerWhile p (bf ++ [c]) d ⟨s,if d = '\n' then lno+1 else lno,0⟩ := by
      rw [lexerWhile,if_pos first]
      simp only [lexerGetc_cons]
    by_cases inside : p d = true
    · obtain ⟨w,lno',all,collected⟩ := lexerWhile_text noNul s (bf ++ [c]) d (if d = '\n' then lno+1 else lno) inside
      refine ⟨d :: w,lno',by simpa [inside] using all,?_⟩
      rw [next]
      rcases collected with ⟨rfl,run⟩ | ⟨stop,rest,rfl,run⟩
      · exact .inl ⟨rfl,by rw [run,List.append_assoc]; rfl⟩
      · exact .inr ⟨stop,rest,rfl,by rw [run,List.append_assoc]; rfl⟩
    · refine ⟨[],if d = '\n' then lno+1 else lno,by simp,.inr ⟨d,s,rfl,?_⟩⟩
      rw [next,lexerWhile,if_neg inside]

/-- A string goes up to the quote that closes it. -/
theorem lexerString_text {str : Str} {lx' : Input} : ∀ (s bf : Str) (lno : Nat), bare .string s = false →
    lexerString bf ⟨s,lno,0⟩ = some (str,lx') →
    ∃ w rest lno', s = w ++ '"' :: rest ∧ '"' ∉ w ∧ nul ∉ w ∧ str = bf ++ w ∧ lx' = ⟨rest,lno',0⟩
  | [],bf,lno,_,run => by
    rw [lexerString] at run
    simp at run
  | c :: s,bf,lno,whole,run => by
    simp only [bare,Bool.or_eq_false_iff,decide_eq_false_iff_not] at whole
    obtain ⟨notNul,whole⟩ := whole
    rw [lexerString] at run
    simp only [lexerGetc_cons,notNul,↓reduceIte] at run
    by_cases quote : c = '"'
    · rw [if_pos quote] at run
      cases run
      exact ⟨[],s,_,by rw [quote]; rfl,by simp,by simp,by simp,rfl⟩
    · rw [if_neg quote] at run
      rw [if_neg quote] at whole
      obtain ⟨w,rest,lno',rfl,noQuote,noNul,rfl,rfl⟩ := lexerString_text s (bf ++ [c]) _ whole run
      exact ⟨c :: w,rest,lno',rfl,by simp [noQuote,Ne.symm quote],by simp [noNul,Ne.symm notNul],by simp,rfl⟩

/-- The input is at a text, or at its end if it is empty. -/
def At (rest : Str) (lx : Input) : Prop :=
  (∃ lno, lx = ⟨rest,lno,0⟩) ∨ rest = [] ∧ ∃ lno eof, lx = ⟨[],lno,eof+1⟩

theorem lexerUngetc_at (c : Char) (rest : Str) (lno : Nat) : At (c :: rest) (lexerUngetc c ⟨rest,lno,0⟩) :=
  .inl ⟨_,rfl⟩

/-- A token takes the spaces and comments before it and what it is made of. -/
theorem configLexerRead_covers {text : Str} {lno : Nat} {errors : List (Nat × ConfigLexer.Problem)}
    {item : Item TokenType} {s' : State} (whole : bare .plain text = false)
    (run : configLexerRead mode ⟨⟨text,lno,0⟩,errors⟩ = .ok (item,s')) :
    (∃ last, item = .eof last) ∧ Covers mode text [] ∨
    ∃ tk rest, item = .token tk ∧ bare .plain rest = false ∧ At rest s'.input ∧
      ∀ ds, Covers mode rest ds → Covers mode text (datum tk :: ds) := by
  rw [configLexerRead] at run
  dsimp only at run
  rcases (@skip_covers mode) text lno whole with ⟨ended,covers⟩ | ⟨c,cs,here,skipped,notNul,noComment,whole',covers⟩
  · rw [if_pos ended] at run
    cases run
    exact .inl ⟨⟨_,rfl⟩,covers⟩
  right
  rw [skipped] at run
  dsimp only at run
  rw [if_neg notNul] at run
  by_cases lower : islower c = true
  · rw [if_pos lower] at run
    have first : isWord c = true := by simp [isWord,lower]
    rw [bare_plain (visible_of_isWord first)] at whole'
    obtain ⟨w,lno',all,⟨rfl,collected⟩ | ⟨stop,rest,rfl,collected⟩⟩ :=
      lexerWhile_text (p := isWord) (by decide) cs [] c here first
    · rw [collected] at run
      cases run
      refine ⟨_,[],rfl,rfl,.inr ⟨rfl,lno',0,rfl⟩,fun ds more => covers _ ?_⟩
      have piece := Covers.token (Spells.word here lower all) more
      rwa [List.append_nil] at piece
    · rw [collected] at run
      cases run
      rw [bare_plain_append (fun d member => visible_of_isWord (all d member))] at whole'
      exact ⟨_,stop :: rest,rfl,whole',lexerUngetc_at stop rest lno',fun ds more =>
        covers _ (.token (.word here lower all) more)⟩
  rw [if_neg lower] at run
  by_cases digit : isdigit c = true
  · rw [if_pos digit] at run
    rw [bare_plain (visible_of_isWord (by simp [isWord,digit]))] at whole'
    obtain ⟨w,lno',all,⟨rfl,collected⟩ | ⟨stop,rest,rfl,collected⟩⟩ :=
      lexerWhile_text (p := isdigit) (by decide) cs [] c here digit
    · rw [collected] at run
      cases run
      refine ⟨_,[],rfl,rfl,.inr ⟨rfl,lno',0,rfl⟩,fun ds more => covers _ ?_⟩
      have piece := Covers.token ((@Spells.integer mode) digit all) more
      rwa [List.append_nil] at piece
    · rw [collected] at run
      cases run
      rw [bare_plain_append (fun d member => visible_of_isWord (by simp [isWord,all d member]))] at whole'
      exact ⟨_,stop :: rest,rfl,whole',lexerUngetc_at stop rest lno',fun ds more =>
        covers _ (.token (.integer digit all) more)⟩
  rw [if_neg digit] at run
  by_cases quote : c = '"'
  · subst quote
    rw [if_pos rfl] at run
    simp only [bare,show '"' ≠ nul from by decide,show '"' ≠ '#' from by decide,decide_false,Bool.false_or,
      ↓reduceIte] at whole'
    cases collected : lexerString [] ⟨cs,here,0⟩ with
    | none => rw [collected] at run; cases run
    | some found =>
      obtain ⟨str,lx⟩ := found
      obtain ⟨w,rest,lno',rfl,noQuote,noNul,same,rfl⟩ := lexerString_text cs [] here whole' collected
      rw [List.nil_append] at same
      subst same
      rw [collected] at run
      cases run
      rw [bare_string rest noQuote noNul] at whole'
      refine ⟨_,rest,rfl,whole',.inl ⟨lno',rfl⟩,fun ds more => covers _ ?_⟩
      have piece := Covers.token ((@Spells.string mode) noQuote noNul) more
      rwa [show '"' :: str ++ ['"'] ++ rest = '"' :: (str ++ '"' :: rest) from by simp] at piece
  · rw [if_neg quote] at run
    cases run
    rw [bare_plain ⟨notNul,noComment,quote⟩] at whole'
    exact ⟨_,cs,rfl,whole',.inl ⟨here,rfl⟩,fun ds more =>
      covers _ (.token (.symbol here ⟨notNul,noComment,quote⟩) more)⟩

/-- The tokens of a text and the spaces and comments between them are all there is in it. -/
theorem lexerAlloc_covers {text : Str} {lx : Input} {errors : List (Nat × ConfigLexer.Problem)} {tks : Tokens TokenType}
    {s : State} (whole : bare .plain text = false) (at_text : At text lx)
    (run : lexerAlloc (configReader mode) ⟨lx,errors⟩ = .ok (tks,s)) : Covers mode text (tks.pending.map datum) := by
  induction size : lx.rest.length using Nat.strongRecOn generalizing text lx errors tks with
  | _ n ih =>
    rcases at_text with ⟨lno,rfl⟩ | ⟨rfl,lno,eof,rfl⟩
    · cases emitted : (configReader mode).read ⟨⟨text,lno,0⟩,errors⟩ with
      | error e => rw [lexerAlloc_error emitted] at run; cases run
      | ok out =>
        obtain ⟨item,s'⟩ := out
        rcases configLexerRead_covers whole emitted with ⟨⟨last,rfl⟩,covers⟩ | ⟨tk,rest,rfl,whole',there,covers⟩
        · rw [lexerAlloc_eof emitted] at run
          cases run
          exact covers
        · have shorter := (configReader mode).consumes emitted
          rw [lexerAlloc_token emitted] at run
          cases later : lexerAlloc (configReader mode) s' with
          | error e => rw [later] at run; cases run
          | ok out =>
            obtain ⟨tks',s''⟩ := out
            rw [later] at run
            cases run
            exact covers _ (ih s'.input.rest.length (size ▸ shorter) whole' there later rfl)
    · have read : (configReader mode).read ⟨⟨[],lno,eof+1⟩,errors⟩ = .ok (.eof lno,⟨⟨[],lno,eof+2⟩,errors⟩) := by
        simp only [configReader,configLexerRead,skip_ended,↓reduceIte]
      rw [lexerAlloc_eof read] at run
      cases run
      exact .nil

/-! ## Files -/

/-- The configuration is what statements make of the initial one, and nothing
    but their tokens, spaces and comments stands in the text. -/
def Accounted (host : Host) (text : Str) (cf cf' : Config) : Prop :=
  ∃ sts final, Covers cf.mode text (sts.flatMap Statement.data) ∧ runAll host sts cf = some final ∧
    cf' = afterParse final

theorem configAccounted_iff {host : Host} {text : Str} {cf cf' : Config}
    (accepted : configParse host text cf = .ok cf') :
    Accounted host text cf cf' ↔ bare .plain text = false := by
  constructor
  · rintro ⟨sts,final,covers,_,_⟩
    exact covers_bare covers
  · intro whole
    obtain ⟨sts,final,written,ran,_,rfl⟩ := configParse_runs accepted
    unfold Written tokens at written
    split at written
    · cases written
    · next lx s lexed =>
      have covers := lexerAlloc_covers whole (.inl ⟨1,rfl⟩) lexed
      rw [Option.some.inj written] at covers
      exact ⟨sts,final,covers,ran,rfl⟩

/-- Step files and configurations that are accepted are accounted for as a whole
    exactly if they have no NUL, or none outside of the comments. -/
theorem nothing_ignored_iff (host : Host) :
    (∀ text sf, stepsParse text = .ok sf → (StepCoverage.Accounted text sf ↔ nul ∉ text)) ∧
    ∀ text cf cf', configParse host text cf = .ok cf' → (Accounted host text cf cf' ↔ bare .plain text = false) :=
  ⟨fun _ _ accepted => StepCoverage.accounted_iff accepted,fun _ _ _ accepted => configAccounted_iff accepted⟩

/-- The row `1,env,0,10,0,,root,1666666666,0` behind a NUL is dropped. -/
theorem nothing_ignored_env : ∃ sf,
    stepsParse (StepCoverage.line columns ++ nul ::
      Row.line ⟨1,['e','n','v'],0,10,0,[],['r','o','o','t'],1666666666,0⟩) = .ok sf ∧ ¬ StepCoverage.Accounted
        (StepCoverage.line columns ++ nul :: Row.line ⟨1,['e','n','v'],0,10,0,[],['r','o','o','t'],1666666666,0⟩)
          sf := by
  have accepted := StepCoverage.stepsParse_nul (Row.line ⟨1,['e','n','v'],0,10,0,[],['r','o','o','t'],1666666666,0⟩)
  refine ⟨_,accepted,?_⟩
  intro accounted
  exact (StepCoverage.accounted_iff accepted).mp accounted (List.mem_append_right _ List.mem_cons_self)

end Robsd.ConfigCoverage
