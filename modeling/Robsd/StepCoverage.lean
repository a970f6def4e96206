import Robsd.StepReading

/-!
How much of a step file an accepted parse accounts for: all of it, unless there
is a NUL, where the lexer takes the file to end.
-/
namespace Robsd.StepCoverage
open Robsd.Strings
open Robsd.Lexer
open Robsd.Steps
open Robsd.StepFormat
open Robsd.StepReading

/-- The characters a token was made of. -/
def spelled (tk : Token TokenType) : Str :=
  match tk.type with
  | .comma => [',']
  | .value => tk.str
  | .newline => ['\n']

/-- The characters of the tokens ahead. -/
def ahead (lx : Tokens TokenType) : Str := lx.pending.flatMap spelled

/-- A token as the lexer makes it. -/
def Sound (tk : Token TokenType) : Prop := tk.type = .value → tk.str ≠ [] ∧ Clean tk.str

/-- A line of cells. -/
def line (cells : List Str) : Str := commas cells ++ ['\n']

/-- The text is the line of the columns and one line for each step, whose cells
    make the step. An empty file has neither. -/
def Accounted (text : Str) (sf : StepFile) : Prop :=
  text = [] ∧ sf.columns = [] ∧ sf.steps = [] ∨
  ∃ lines : List (List Str), text = ((sf.columns :: lines).map line).flatten ∧
    (∀ cells ∈ sf.columns :: lines, ∀ c ∈ cells, Clean c) ∧
    List.Forall₂ (fun cells st => cells.length ≤ sf.columns.length ∧ assign initial (sf.columns.zip cells) = .ok st)
      lines sf.steps

/-! ## Tokens -/

/-- A value takes the characters up to the comma or newline behind it. -/
theorem stepLexerValue_text {lno : Nat} {item : Item TokenType} {lx' : Input} :
    ∀ (rest bf : Str) (ch : Char) (here : Nat), nul ∉ rest → stepLexerValue lno bf ch ⟨rest,here,0⟩ = .ok (item,lx') →
      ∃ s tail lno', rest = s ++ tail ∧ ',' ∉ s ∧ '\n' ∉ s ∧
        item = .token (value lno (bf ++ ch :: s)) ∧ lx' = ⟨tail,lno',0⟩
  | [],bf,ch,here,_,run => by
    rw [stepLexerValue] at run
    simp at run
  | c :: rest,bf,ch,here,noNul,run => by
    simp only [List.mem_cons,not_or] at noNul
    rw [stepLexerValue] at run
    simp only [lexerGetc_cons,Ne.symm noNul.1,↓reduceDIte] at run
    by_cases stop : c = ',' ∨ c = '\n'
    · rw [if_pos stop] at run
      cases run
      exact ⟨[],c :: rest,_,rfl,by simp,by simp,rfl,rfl⟩
    · rw [if_neg stop] at run
      rw [not_or] at stop
      obtain ⟨s,tail,lno',rfl,noComma,noNewline,rfl,rfl⟩ := stepLexerValue_text rest _ c _ noNul.2 run
      refine ⟨c :: s,tail,lno',rfl,?_,?_,by simp,rfl⟩
      · simpa [Ne.symm stop.1] using noComma
      · simpa [Ne.symm stop.2] using noNewline

/-- One token is taken off the text, or there is none left. -/
theorem stepLexerRead_text {text : Str} {lno : Nat} {item : Item TokenType} {lx' : Input} (noNul : nul ∉ text)
    (run : stepLexerRead ⟨text,lno,0⟩ = .ok (item,lx')) :
    text = [] ∧ item = .eof lno ∨
    ∃ tk tail lno', item = .token tk ∧ Sound tk ∧ text = spelled tk ++ tail ∧ lx' = ⟨tail,lno',0⟩ := by
  cases text with
  | nil =>
    simp only [stepLexerRead,lexerGetc_nil,↓reduceIte,Except.ok.injEq,Prod.mk.injEq] at run
    exact .inl ⟨rfl,run.1.symm⟩
  | cons c rest =>
    right
    simp only [List.mem_cons,not_or] at noNul
    simp only [stepLexerRead,lexerGetc_cons,Ne.symm noNul.1,↓reduceIte] at run
    by_cases isComma : c = ','
    · rw [if_pos isComma] at run
      cases run
      exact ⟨_,rest,_,rfl,fun impossible => (by cases impossible),by simp [spelled,isComma],rfl⟩
    rw [if_neg isComma] at run
    by_cases isNewline : c = '\n'
    · rw [if_pos isNewline] at run
      cases run
      exact ⟨_,rest,_,rfl,fun impossible => (by cases impossible),by simp [spelled,isNewline],rfl⟩
    rw [if_neg isNewline] at run
    obtain ⟨s,tail,lno',rfl,noComma,noNewline,rfl,rfl⟩ := stepLexerValue_text rest [] c _ noNul.2 run
    have clean : Clean (c :: s) := by
      refine ⟨?_,?_,?_⟩
      · simpa [Ne.symm isComma] using noComma
      · simpa [Ne.symm isNewline] using noNewline
      · intro member
        rcases List.mem_cons.mp member with same | later
        · exact noNul.1 same
        · exact noNul.2 (List.mem_append_left _ later)
    exact ⟨_,tail,lno',rfl,fun _ => ⟨by simp [value],clean⟩,by simp [spelled,value],rfl⟩

/-- The tokens of a text without NUL are all there is in it. -/
theorem lexed_text {text : Str} {lno : Nat} {lx : Tokens TokenType} {s : Input} (noNul : nul ∉ text)
    (run : lexerAlloc stepReader ⟨text,lno,0⟩ = .ok (lx,s)) : text = ahead lx ∧ ∀ tk ∈ lx.pending, Sound tk := by
  induction size : text.length using Nat.strongRecOn generalizing text lno lx with
  | _ n ih =>
    cases emitted : stepReader.read ⟨text,lno,0⟩ with
    | error e => rw [lexerAlloc_error emitted] at run; cases run
    | ok out =>
      obtain ⟨item,lx'⟩ := out
      rcases stepLexerRead_text noNul emitted with ⟨rfl,rfl⟩ | ⟨tk,tail,lno',rfl,sound,rfl,rfl⟩
      · rw [lexerAlloc_eof emitted] at run
        cases run
        exact ⟨rfl,by simp⟩
      · have shorter : tail.length < n := size ▸ stepLexerRead_consumes emitted
        rw [lexerAlloc_token emitted] at run
        cases later : lexerAlloc stepReader ⟨tail,lno',0⟩ with
        | error e => rw [later] at run; cases run
        | ok out =>
          obtain ⟨lx₁,s₁⟩ := out
          rw [later] at run
          cases run
          obtain ⟨rfl,all⟩ := ih tail.length shorter (fun member => noNul (List.mem_append_right _ member)) later rfl
          refine ⟨rfl,?_⟩
          intro tk' member
          rcases List.mem_cons.mp member with rfl | more
          · exact sound
          · exact all tk' more

/-! ## Lines -/

/-- A token that was asked for is the next one ahead. -/
theorem lexerIf_ahead {type : TokenType} {lx lx' : Tokens TokenType} {tk : Token TokenType}
    (next : lexerIf type lx = some (tk,lx')) (sound : ∀ tk ∈ lx.pending, Sound tk) :
    tk.type = type ∧ ahead lx = spelled tk ++ ahead lx' ∧ Sound tk ∧ ∀ tk ∈ lx'.pending, Sound tk := by
  obtain ⟨typed,rfl⟩ := lexerIf_some.mp next
  exact ⟨typed,rfl,sound tk (by simp),fun tk member => sound tk (by simp [member])⟩

theorem lexerIf_comma {lx lx' : Tokens TokenType} {tk : Token TokenType} (next : lexerIf .comma lx = some (tk,lx'))
    (sound : ∀ tk ∈ lx.pending, Sound tk) : ahead lx = ',' :: ahead lx' ∧ ∀ tk ∈ lx'.pending, Sound tk := by
  obtain ⟨typed,text,_,rest⟩ := lexerIf_ahead next sound
  exact ⟨by rw [text,spelled,typed]; rfl,rest⟩

theorem lexerIf_newline {lx lx' : Tokens TokenType} {tk : Token TokenType} (next : lexerIf .newline lx = some (tk,lx'))
    (sound : ∀ tk ∈ lx.pending, Sound tk) : ahead lx = '\n' :: ahead lx' ∧ ∀ tk ∈ lx'.pending, Sound tk := by
  obtain ⟨typed,text,_,rest⟩ := lexerIf_ahead next sound
  exact ⟨by rw [text,spelled,typed]; rfl,rest⟩

theorem lexerExpect_value {lx lx' : Tokens TokenType} {tk : Token TokenType}
    (next : lexerExpect .value lx = (.ok tk,lx')) (sound : ∀ tk ∈ lx.pending, Sound tk) :
    ahead lx = tk.str ++ ahead lx' ∧ tk.str ≠ [] ∧ Clean tk.str ∧ ∀ tk ∈ lx'.pending, Sound tk := by
  obtain ⟨typed,text,here,rest⟩ := lexerIf_ahead (lexerExpect_ok.mp next) sound
  exact ⟨by rw [text,spelled,typed],(here typed).1,(here typed).2,rest⟩

theorem commas_cons (cell : Str) {cells : List Str} (more : cells ≠ []) :
    commas (cell :: cells) = cell ++ ',' :: commas cells := by
  cases cells with
  | nil => exact absurd rfl more
  | cons next cells => rfl

/-- The header takes the line with the columns. -/
theorem stepsParseHeaderLoop_ahead {before columns : List Str} {lx lx' : Tokens TokenType}
    (run : stepsParseHeaderLoop before lx = .ok (columns,lx')) (sound : ∀ tk ∈ lx.pending, Sound tk) :
    ∃ names, names ≠ [] ∧ columns = before ++ names ∧ ahead lx = line names ++ ahead lx' ∧ (∀ c ∈ names, Clean c) ∧
      ∀ tk ∈ lx'.pending, Sound tk := by
  induction size : lx.pending.length using Nat.strongRecOn generalizing before lx with
  | _ n ih =>
    rw [stepsParseHeaderLoop_eq] at run
    split at run
    · cases run
    · next col lx₁ got =>
      obtain ⟨text,_,clean,sound₁⟩ := lexerExpect_value got sound
      split at run
      · next tk lx₂ ended =>
        cases run
        obtain ⟨text₁,sound₂⟩ := lexerIf_newline ended sound₁
        exact ⟨[col.str],by simp,rfl,by simp [text,text₁,line,commas],by simpa using clean,sound₂⟩
      · split at run
        · cases run
        · next tk lx₂ separated =>
          obtain ⟨text₁,sound₂⟩ := lexerIf_comma (lexerExpect_ok.mp separated) sound₁
          have shorter := lexerExpect_length got
          have := lexerExpect_length separated
          obtain ⟨names,some,rfl,text₂,all,sound'⟩ := ih lx₂.pending.length (by omega) run sound₂ rfl
          refine ⟨col.str :: names,by simp,by simp,?_,?_,sound'⟩
          · simp [text,text₁,text₂,line,commas_cons col.str some]
          · intro c member
            rcases List.mem_cons.mp member with rfl | later
            · exact clean
            · exact all c later

/-- A row takes a line, whose cells it assigns to the columns. -/
theorem stepsParseRowLoop_ahead {columns : List Str} {col : Nat} {st st' : Step} {lno lno' : Nat}
    {lx lx' : Tokens TokenType} (run : stepsParseRowLoop columns col st lno lx = .ok (st',lno',lx'))
    (sound : ∀ tk ∈ lx.pending, Sound tk) :
    ∃ cells, cells ≠ [] ∧ col+cells.length ≤ columns.length ∧ ahead lx = line cells ++ ahead lx' ∧
      (∀ c ∈ cells, Clean c) ∧ assign st ((columns.drop col).zip cells) = .ok st' ∧ ∀ tk ∈ lx'.pending, Sound tk := by
  induction size : lx.pending.length using Nat.strongRecOn generalizing col st lno lx with
  | _ n ih =>
    rw [stepsParseRowLoop_eq] at run
    split at run
    · next tk lx₁ skip =>
      obtain ⟨text,sound₁⟩ := lexerIf_comma skip sound
      obtain ⟨cells,some,fits,text₁,all,assigned,sound'⟩ :=
        ih lx₁.pending.length (size ▸ lexerIf_length skip) run sound₁ rfl
      have within : col < columns.length := by
        have := List.length_pos_iff.mpr some
        omega
      refine ⟨[] :: cells,by simp,by simp; omega,?_,?_,?_,sound'⟩
      · simp [text,text₁,line,commas_cons [] some]
      · intro c member
        rcases List.mem_cons.mp member with rfl | later
        · decide
        · exact all c later
      · rw [List.drop_eq_getElem_cons within,List.zip_cons_cons,assign,if_pos rfl]
        exact assigned
    · split at run
      · cases run
      · next val lx₁ got =>
        obtain ⟨text,filled,clean,sound₁⟩ := lexerExpect_value got sound
        split at run
        · cases run
        · next key found =>
          obtain ⟨within,rfl⟩ := List.getElem?_eq_some_iff.mp found
          split at run
          · cases run
          · split at run
            · cases run
            · next st₁ set =>
              have first : ∀ cells, assign st ((columns.drop col).zip (val.str :: cells)) =
                  assign st₁ ((columns.drop (col+1)).zip cells) := by
                intro cells
                rw [List.drop_eq_getElem_cons within,List.zip_cons_cons,assign,if_neg filled,set]
                rfl
              split at run
              · next tk lx₂ ended =>
                cases run
                obtain ⟨text₁,sound₂⟩ := lexerIf_newline ended sound₁
                refine ⟨[val.str],by simp,within,by simp [text,text₁,line,commas],by simpa using clean,?_,sound₂⟩
                rw [first,List.zip_nil_right]
                rfl
              · split at run
                · cases run
                · next tk lx₂ separated =>
                  obtain ⟨text₁,sound₂⟩ := lexerIf_comma (lexerExpect_ok.mp separated) sound₁
                  have shorter := lexerExpect_length got
                  have := lexerExpect_length separated
                  obtain ⟨cells,some,fits,text₂,all,assigned,sound'⟩ := ih lx₂.pending.length (by omega) run sound₂ rfl
                  refine ⟨val.str :: cells,by simp,by simp; omega,?_,?_,(first cells).trans assigned,sound'⟩
                  · simp [text,text₁,text₂,line,commas_cons val.str some]
                  · intro c member
                    rcases List.mem_cons.mp member with rfl | later
                    · exact clean
                    · exact all c later

/-- The rows take one line each up to the end of the tokens. -/
theorem stepsParseRows_ahead {columns : List Str} {steps : List Step} {lx : Tokens TokenType}
    (run : stepsParseRows columns lx = .ok steps) (sound : ∀ tk ∈ lx.pending, Sound tk) :
    ∃ lines : List (List Str), ahead lx = (lines.map line).flatten ∧ (∀ cells ∈ lines, ∀ c ∈ cells, Clean c) ∧
      List.Forall₂ (fun cells st => cells.length ≤ columns.length ∧ assign initial (columns.zip cells) = .ok st)
        lines steps := by
  induction size : lx.pending.length using Nat.strongRecOn generalizing lx steps with
  | _ n ih =>
    rw [stepsParseRows_eq] at run
    split at run
    · next ended =>
      cases run
      have empty : lx.pending = [] := by simpa [lexerPeekEof] using ended
      exact ⟨[],by simp [ahead,empty],by simp,.nil⟩
    · split at run
      · cases run
      · next st lx₁ row =>
        have shorter := stepsParseRow_length row
        rw [stepsParseRow,stepInit_eq] at row
        dsimp only at row
        split at row
        · cases row
        · next st₁ lno lx₂ loop =>
          obtain ⟨cells,_,fits,text,clean,assigned,sound₂⟩ := stepsParseRowLoop_ahead loop sound
          unfold stepValidate at row
          split at row
          · cases row
            cases rest : stepsParseRows columns lx₁ with
            | error e => rw [rest] at run; cases run
            | ok steps₁ =>
              rw [rest] at run
              cases run
              obtain ⟨lines,text₁,all,rows⟩ := ih lx₁.pending.length (size ▸ shorter) rest sound₂ rfl
              refine ⟨cells :: lines,by simp [text,text₁],?_,.cons ⟨by omega,assigned⟩ rows⟩
              rintro cells' member
              rcases List.mem_cons.mp member with rfl | later
              · exact clean
              · exact all cells' later
          · cases row

/-! ## Files -/

theorem commas_noNul : ∀ {cells : List Str}, (∀ c ∈ cells, Clean c) → nul ∉ commas cells
  | [],_ => by simp [commas]
  | [cell],clean => (clean cell (by simp)).2.2
  | cell :: next :: cells,clean => by
    have here := (clean cell (by simp)).2.2
    have later := commas_noNul fun c member => clean c (List.mem_cons_of_mem cell member)
    rw [commas_cons cell (List.cons_ne_nil next cells)]
    simp only [List.mem_append,List.mem_cons,not_or]
    exact ⟨here,by decide,later⟩

/-- An accepted file is accounted for exactly if there is no NUL in it. -/
theorem accounted_iff {text : Str} {sf : StepFile} (accepted : stepsParse text = .ok sf) :
    Accounted text sf ↔ nul ∉ text := by
  constructor
  · rintro (⟨rfl,_⟩ | ⟨lines,rfl,clean,_⟩)
    · simp
    · intro member
      obtain ⟨_,inside,here⟩ := List.mem_flatten.mp member
      obtain ⟨cells,row,rfl⟩ := List.mem_map.mp inside
      rcases List.mem_append.mp here with cell | ended
      · exact commas_noNul (clean cells row) cell
      · exact absurd (List.mem_singleton.mp ended) (by decide)
  · intro noNul
    simp only [stepsParse,bind,Except.bind] at accepted
    split at accepted
    · cases accepted
    · next lexed run =>
      obtain ⟨lx,s⟩ := lexed
      obtain ⟨rfl,sound⟩ := lexed_text noNul run
      split at accepted
      · cases accepted
      · next header parsed =>
        obtain ⟨columns,lx'⟩ := header
        split at accepted
        · cases accepted
        · next steps body =>
          cases accepted
          unfold stepsParseHeader at parsed
          split at parsed
          · next ended =>
            cases parsed
            have empty : lx.pending = [] := by simpa [lexerPeekEof] using ended
            rw [stepsParseRows_eq,if_pos ended] at body
            cases body
            exact .inl ⟨by simp [ahead,empty],rfl,rfl⟩
          · obtain ⟨names,_,rfl,text,clean,sound'⟩ := stepsParseHeaderLoop_ahead parsed sound
            obtain ⟨lines,text',all,rows⟩ := stepsParseRows_ahead body sound'
            refine .inr ⟨lines,by simp [text,text'],?_,rows⟩
            intro cells member
            rcases List.mem_cons.mp member with rfl | later
            · exact clean
            · exact all cells later

/-- Whatever follows a NUL behind the header is not read. -/
theorem stepsParse_nul (rest : Str) : stepsParse (line columns ++ nul :: rest) = .ok ⟨columns,[]⟩ := by
  have ended : Lexed 2 (nul :: rest) [] 2 :=
    ⟨⟨rest,2,0⟩,lexerAlloc_eof (r := stepReader) (by simp [stepReader,stepLexerRead,show nul ≠ '\n' from by decide])⟩
  have clean : ∀ c ∈ columns, Clean c := by
    intro c member
    obtain ⟨f,_,rfl⟩ := List.mem_map.mp member
    exact name_clean f
  have text : line columns ++ nul :: rest = commas columns ++ '\n' :: nul :: rest := by simp [line]
  have lexed := lexed_line Nat.one_pos ended columns clean
  rw [text,stepsParse_header (by decide) (by decide) lexed,stepsParseRows_eq,
    if_pos (show lexerPeekEof (⟨[],2⟩ : Tokens TokenType) = true from rfl)]
  rfl

end Robsd.StepCoverage
