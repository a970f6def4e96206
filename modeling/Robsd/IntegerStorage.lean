import Mathlib.Algebra.Order.Group.Unbundled.Int
import Robsd.Acceptance
import Robsd.Processors

/-!
Numbers of a configuration from their digits to the text that refers to them:
the lexer that takes what an `int` holds, the scaling of a timeout and the union
through which the number is stored, whose `i64` is assigned and whose `integer` is
read.
-/
namespace Robsd.IntegerStorage
open Robsd.Strings
open Robsd.Lexer
open Robsd.Modes
open Robsd.Decimal (decimal decimal_injective)
open Robsd.ConfigLexer
open Robsd.ConfigLayout
open Robsd.ConfigTokens (TimeUnit i64_of_fits)
open Robsd.Configuration
open Robsd.ConfigParse
open Robsd.Statements
open Robsd.Acceptance (complaints configParse_iff)
open Robsd.Effects (runAll_adds)
open Robsd.Redefinition (statements_shared single_of_found canvasText)
open Robsd.RegressRoundTrip (sampleHost)
open Robsd.Processors
variable {host : Host} {mode : Mode}

/-! ## Numbers that are too big -/

theorem i32_lt (n : Int) : i32 n < 2147483648 := by
  unfold i32
  have := @Int.bmod_lt n (2^32) (by decide)
  simp only [Nat.reducePow] at this ⊢
  omega

/-- An overflow that occurred is remembered. -/
theorem addDigit_sticky (digits : Str) (n : Int) : (digits.foldl addDigit (true,n)).1 = true := by
  induction digits generalizing n with
  | nil => rfl
  | cons c digits ih =>
    rw [List.foldl_cons]
    by_cases mul : i32 (n*10) ≠ n*10
    · rw [addDigit,if_pos mul]
      exact ih _
    rw [addDigit,if_neg mul]
    by_cases add : i32 (n*10+((c.toNat- '0'.toNat : Nat) : Int)) ≠ n*10+((c.toNat- '0'.toNat : Nat) : Int)
    · rw [if_pos add]
      exact ih _
    · rw [if_neg add]
      exact ih _

/-- A digit overflows exactly where the number gets too big. -/
theorem addDigit_overflows : ∀ (digits : Str) (n : Nat), n ≤ intMax → intMax < Nat.ofDigitChars 10 digits n →
    (digits.foldl addDigit (false,(n : Int))).1 = true
  | [],n,small,big => by
    rw [Nat.ofDigitChars_nil] at big
    exact absurd big (Nat.not_lt.mpr small)
  | c :: cs,n,small,big => by
    rw [Nat.ofDigitChars_cons] at big
    by_cases fits : 10*n+(c.toNat- '0'.toNat) ≤ intMax
    · have first := addDigit_fits [c] n (by rw [Nat.ofDigitChars_cons,Nat.ofDigitChars_nil]; exact fits)
      rw [List.foldl_cons,List.foldl_nil,Nat.ofDigitChars_cons,Nat.ofDigitChars_nil] at first
      rw [List.foldl_cons,first]
      exact addDigit_overflows cs _ fits big
    unfold intMax at fits
    rw [List.foldl_cons]
    by_cases mul : i32 ((n : Int)*10) ≠ (n : Int)*10
    · rw [addDigit,if_pos mul]
      exact addDigit_sticky cs _
    rw [addDigit,if_neg mul]
    have add : i32 ((n : Int)*10+((c.toNat- '0'.toNat : Nat) : Int)) ≠
      (n : Int)*10+((c.toNat- '0'.toNat : Nat) : Int) := by
      have := i32_lt ((n : Int)*10+((c.toNat- '0'.toNat : Nat) : Int))
      omega
    rw [if_pos add]
    exact addDigit_sticky cs _

/-- The digits of a number. -/
structure Numeral where
  digits : Str
  nonempty : digits ≠ []
  all : ∀ c ∈ digits, isdigit c = true

/-- The value of the digits. -/
def Numeral.value (d : Numeral) : Nat := Nat.ofDigitChars 10 d.digits 0

def Numeral.lexeme (d : Numeral) : Lexeme := .integer d.digits

theorem Numeral.plain {d : Numeral} (fits : d.value ≤ intMax) : d.lexeme.Plain := ⟨d.nonempty,d.all,fits⟩

/-- The lexer reads a number that is too big, and reports it. -/
theorem configLexerRead_tooBig {d : Numeral} (big : intMax < d.value) {first sep rest : Str} {lno : Nat}
    {errors : List (Nat × Problem)} (positive : 0 < lno) (before : Separator first) (after : Separator sep)
    (there : sep ≠ []) :
    ∃ tk here lno', 0 < lno' ∧ configLexerRead mode ⟨⟨first ++ (d.lexeme.text ++ (sep ++ rest)),lno,0⟩,errors⟩ =
      .ok (.token tk,⟨⟨sep ++ rest,lno',0⟩,errors ++ [(here,.integerTooBig)]⟩) := by
  obtain ⟨stop,tail,behind,noWord,noDigit⟩ := separator_cons after there
  have here : 0 < lno+first.count '\n' := by omega
  obtain ⟨digits,nonempty,all⟩ := d
  obtain ⟨c,cs,rfl⟩ := List.exists_cons_of_ne_nil nonempty
  have digit := all c (by simp)
  obtain ⟨noComment,noNul⟩ := visible_of_isdigit digit
  have collected := (@lexerWhile_stop _ _ (tail ++ rest) (lno+first.count '\n')) noDigit (by decide) cs [] c
    digit fun e member => all e (by simp [member])
  have overflow := addDigit_overflows (c :: cs) 0 (Nat.zero_le _) big
  refine ⟨{
      type := .integer
      lno := lno+first.count '\n'
      int := ((c :: cs).foldl addDigit (false,((0 : Nat) : Int))).2 },
    lno+first.count '\n',lno+first.count '\n',here,?_⟩
  simp only [configLexerRead,skip_separator before,Numeral.lexeme,Lexeme.text,List.cons_append,behind]
  rw [skip_char (isspace_of_isdigit digit) noComment]
  simp only [noNul,not_islower_of_isdigit digit,digit,Bool.false_eq_true,↓reduceIte,collected,lexerUngetc_getc here,
    List.nil_append]
  rw [show (0 : Int) = ((0 : Nat) : Int) from rfl,if_pos overflow]

/-- Of lexemes among which a number is too big, the lexer reports that. -/
theorem lexerAlloc_tooBig {d : Numeral} (big : intMax < d.value) {sep : Str} {after : List (Lexeme × Str)}
    {errors : List (Nat × Problem)} (plainAfter : ∀ i ∈ after, i.1.Plain) :
    ∀ (before : List (Lexeme × Str)) (first : Str) (lno : Nat), 0 < lno →
      Layout first (before ++ (d.lexeme,sep) :: after) → (∀ i ∈ before, i.1.Plain) →
      ∃ tks s, lexerAlloc (configReader mode) ⟨⟨render first (before ++ (d.lexeme,sep) :: after),lno,0⟩,errors⟩ =
        .ok (tks,s) ∧ s.errors ≠ []
  | [],first,lno,positive,layout,_ => by
    obtain ⟨separates,there⟩ := layout.behind (d.lexeme,sep) (by simp)
    obtain ⟨tk,here,lno',positive',read⟩ :=
      @configLexerRead_tooBig mode d big first sep (after.flatMap fun i => i.1.text ++ i.2) lno
      errors positive layout.first separates there
    have rest : Layout sep after := ⟨separates,fun i member => layout.behind i (by simp [member])⟩
    obtain ⟨tks,last,s,run,reported,_⟩ :=
      (@lexerAlloc_render mode (errors ++ [(here,.integerTooBig)])) after sep lno' positive' rest plainAfter
    have shape : render first ([] ++ (d.lexeme,sep) :: after) =
        first ++ (d.lexeme.text ++ (sep ++ after.flatMap fun i => i.1.text ++ i.2)) := by
      simp [render]
    refine ⟨⟨tk :: tks,last⟩,s,?_,by rw [reported]; simp⟩
    rw [shape,lexerAlloc_token (r := configReader mode) read]
    change (lexerAlloc (configReader mode) ⟨⟨render sep after,lno',0⟩,_⟩).map _ = _
    rw [run]
    rfl
  | (l,sep') :: before,first,lno,positive,layout,plain => by
    obtain ⟨separates,there⟩ := layout.behind (l,sep') (by simp)
    obtain ⟨here,lno',positive',read⟩ :=
      (@configLexerRead_lexeme mode) (plain (l,sep') (by simp)) positive layout.first separates there
    have rest : Layout sep' (before ++ (d.lexeme,sep) :: after) :=
      ⟨separates,fun i member => layout.behind i (by simp only [List.cons_append,List.mem_cons]; exact .inr member)⟩
    obtain ⟨tks,s,run,reported⟩ := lexerAlloc_tooBig big plainAfter before sep' lno' positive' rest
      fun i member => plain i (by simp [member])
    have shape : render first ((l,sep') :: before ++ (d.lexeme,sep) :: after) =
        first ++ (l.text ++ (sep' ++ (before ++ (d.lexeme,sep) :: after).flatMap fun i => i.1.text ++ i.2)) := by
      simp [render]
    refine ⟨{ tks with pending := l.token mode here :: tks.pending },s,?_,reported⟩
    rw [shape,lexerAlloc_token (r := configReader mode) read]
    change (lexerAlloc (configReader mode) ⟨⟨render sep' (before ++ (d.lexeme,sep) :: after),lno',0⟩,_⟩).map _ = _
    rw [run]
    rfl

theorem complaints_tooBig {d : Numeral} (big : intMax < d.value) {first sep : Str}
    {before after : List (Lexeme × Str)} (layout : Layout first (before ++ (d.lexeme,sep) :: after))
    (plain : ∀ i ∈ before, i.1.Plain) (plainAfter : ∀ i ∈ after, i.1.Plain) :
    complaints mode (render first (before ++ (d.lexeme,sep) :: after)) ≠ [] := by
  obtain ⟨tks,s,run,reported⟩ := lexerAlloc_tooBig big plainAfter before first 1 Nat.one_pos layout plain
  unfold complaints
  rw [Input.start,run]
  exact reported

/-! ## What lexemes say -/

/-- What the token for a lexeme says. -/
def meaning (mode : Mode) (l : Lexeme) : Datum := datum (l.token mode 0)

theorem meaning_stands {l : Lexeme} {tk : Token TokenType} (stands : Stands mode l tk) : datum tk = meaning mode l := by
  obtain ⟨lno,rfl⟩ := stands
  unfold meaning
  cases l with
  | word w =>
    simp only [Lexeme.token,wordToken]
    split <;> rfl
  | _ => rfl

theorem meaning_map {ls : List Lexeme} {tks : List (Token TokenType)} (stand : List.Forall₂ (Stands mode) ls tks) :
    tks.map datum = ls.map (meaning mode) := by
  induction stand with
  | nil => rfl
  | cons here _ ih => rw [List.map_cons,List.map_cons,meaning_stands here,ih]

theorem tokens_render {first : Str} {items : List (Lexeme × Str)} (layout : Layout first items)
    (plain : ∀ i ∈ items, i.1.Plain) :
    complaints mode (render first items) = [] ∧ tokens mode (render first items) =
      some (items.map fun i => meaning mode i.1) := by
  obtain ⟨tks,last,s,run,quiet,stand⟩ := (@lexerAlloc_render mode []) items first 1 Nat.one_pos layout plain
  unfold complaints tokens
  rw [Input.start,run]
  refine ⟨quiet,congrArg some ?_⟩
  rw [meaning_map stand,List.map_map]
  rfl

/-! ## Statements of a text -/

/-- Whether a token is no keyword. -/
def bare : Datum → Bool
  | .keyword _ => false
  | _ => true

theorem bare_list (xs : List Str) : ∀ d ∈ listData xs, bare d = true := by
  intro d member
  simp only [listData,List.cons_append,List.mem_cons,List.mem_append,List.mem_map,List.not_mem_nil,or_false] at member
  rcases member with rfl | ⟨x,_,rfl⟩ | rfl <;> rfl

theorem bare_suiteOption (option : SuiteOption) : ∀ d ∈ option.data, bare d = true := by
  cases option with
  | env xs | obj xs | packages xs | targets xs => exact List.forall_mem_cons.mpr ⟨rfl,bare_list xs⟩
  | _ => simp [SuiteOption.data,bare]

theorem bare_stepOption (option : StepOption) : ∀ d ∈ option.data, bare d = true := by
  cases option with
  | command xs => exact List.forall_mem_cons.mpr ⟨rfl,bare_list xs⟩
  | parallel => simp [StepOption.data,bare]

/-- No keyword is among the data of an argument. -/
theorem bare_argument (arg : Argument) : ∀ d ∈ arg.data, bare d = true := by
  cases arg with
  | list xs => exact bare_list xs
  | suite path options =>
    refine List.forall_mem_cons.mpr ⟨rfl,?_⟩
    intro d member
    obtain ⟨option,_,among⟩ := List.mem_flatMap.mp member
    exact bare_suiteOption option d among
  | step name options =>
    refine List.forall_mem_cons.mpr ⟨rfl,?_⟩
    intro d member
    obtain ⟨option,_,among⟩ := List.mem_flatMap.mp member
    exact bare_stepOption option d among
  | _ => simp [Argument.data,bare]

/-- The data up to the next keyword. -/
theorem takeWhile_bare (arg : Argument) (sts : List Statement) :
    (arg.data ++ sts.flatMap Statement.data).takeWhile bare = arg.data := by
  rw [List.takeWhile_append_of_pos (bare_argument arg)]
  cases sts with
  | nil => simp
  | cons st sts => simp [Statement.data,bare]

/-- The data of statements determine their keywords and the data of their arguments. -/
theorem data_determines : ∀ {sts sts' : List Statement}, sts.flatMap Statement.data = sts'.flatMap Statement.data →
    sts.map (fun st => (st.kw,st.arg.data)) = sts'.map fun st => (st.kw,st.arg.data)
  | [],[],_ => rfl
  | [],st' :: sts',same => by simp [Statement.data] at same
  | st :: sts,[],same => by simp [Statement.data] at same
  | st :: sts,st' :: sts',same => by
    rw [List.flatMap_cons,List.flatMap_cons,Statement.data,Statement.data,List.cons_append,
      List.cons_append,List.cons.injEq,Datum.keyword.injEq] at same
    obtain ⟨kw,rest⟩ := same
    have argument : st.arg.data = st'.arg.data := by rw [← takeWhile_bare st.arg sts,rest,takeWhile_bare]
    rw [argument] at rest
    rw [List.map_cons,List.map_cons,kw,argument,data_determines (List.append_cancel_left rest)]

/-- A statement that can be run behind others. -/
theorem runAll_middle {before after : List Statement} {st : Statement} {s t : Config} :
    runAll host (before ++ st :: after) s = some t ↔
      ∃ u v, runAll host before s = some u ∧ st.run host u = some v ∧ runAll host after v = some t := by
  simp only [runAll,List.foldlM_append,List.foldlM_cons,Option.bind_eq_bind,Option.bind_eq_some_iff]
  constructor
  · rintro ⟨u,ran,v,here,later⟩
    exact ⟨u,v,ran,here,later⟩
  · rintro ⟨u,v,ran,here,later⟩
    exact ⟨u,ran,v,here,later⟩

/-! ## Files with a number -/

/-- A file with a keyword and its argument between statements that are fine,
    whatever number the keyword is given and whatever the layout. -/
structure File (host : Host) (mode : Mode) (kw : Str) (argument : List Lexeme) where
  first : Str
  ahead : List (Lexeme × Str)
  own : List (Lexeme × Str)
  after : List (Lexeme × Str)
  front : List Statement
  behind : List Statement
  mid : Config
  layout : Layout first (ahead ++ own ++ after)
  lexemes : own.map Prod.fst = .word kw :: argument
  plainAhead : ∀ i ∈ ahead, i.1.Plain
  plainAfter : ∀ i ∈ after, i.1.Plain
  aheadData : ahead.map (fun i => meaning mode i.1) = front.flatMap Statement.data
  afterData : after.map (fun i => meaning mode i.1) = behind.flatMap Statement.data
  ran : runAll host front (configAlloc mode) = some mid
  unset : mid.value kw = none
  fine : ∀ n, ∃ final, runAll host behind (configAppend mid kw (.integer n)) = some final ∧ missing final = []

/-- The text of the file. -/
def File.text {kw : Str} {argument : List Lexeme} (file : File host mode kw argument) : Str :=
  render file.first (file.ahead ++ file.own ++ file.after)

section
variable {kw : Str} {argument : List Lexeme} (file : File host mode kw argument)

theorem File.mid_mode : file.mid.mode = mode := (runAll_adds _ rfl file.ran).mode

theorem File.mid_early : file.mid.early = false := (runAll_adds _ rfl file.ran).early

section
variable {gr : Grammar} {fn : Parser} (known : configFindGrammarForKeyword mode kw = some (gr,fn))
  (rep : gr.flags.rep = false)
  (word : (Lexeme.word kw).Plain ∧ meaning mode (.word kw) = .keyword kw)
    (plain : ∀ l ∈ argument, l.Plain) {arg : Argument}
  (data : argument.map (meaning mode) = arg.data)
include word plain data

/-- The file consists of its statements. -/
theorem File.written :
    complaints mode file.text = [] ∧ Written mode file.text (file.front ++ ⟨kw,arg⟩ :: file.behind) := by
  have own : ∀ i ∈ file.own, i.1.Plain := by
    intro i member
    have among : i.1 ∈ Lexeme.word kw :: argument := file.lexemes ▸ List.mem_map_of_mem member
    rcases List.mem_cons.mp among with keyword | inside
    · rw [keyword]
      exact word.1
    · exact plain _ inside
  obtain ⟨quiet,read⟩ := (@tokens_render mode) file.layout (by
    intro i member
    simp only [List.mem_append] at member
    rcases member with (ahead | here) | after
    · exact file.plainAhead i ahead
    · exact own i here
    · exact file.plainAfter i after)
  refine ⟨quiet,?_⟩
  have statement : file.own.map (fun i => meaning mode i.1) = Statement.data ⟨kw,arg⟩ := by
    have mapped := congrArg (List.map (meaning mode)) file.lexemes
    rw [List.map_map,List.map_cons,word.2,data] at mapped
    exact mapped
  unfold Written File.text
  rw [read,List.map_append,List.map_append,file.aheadData,file.afterData,statement,
    List.flatMap_append,List.flatMap_cons,List.append_assoc]

include known

/-- Where the file is accepted, the keyword is given an argument of these data. -/
theorem File.run_of_accepted {cf : Config} (accepted : configParse host file.text (configAlloc mode) = .ok cf) :
    ∃ arg' s t, arg'.data = arg.data ∧ Argument.run host kw s fn arg' = some t := by
  obtain ⟨_,sts,final,written,ran,_,_⟩ := configParse_iff.mp accepted
  have own := (file.written word plain data).2
  have same : some (sts.flatMap Statement.data) = some _ := written.symm.trans own
  have parts := data_determines (Option.some.inj same)
  rw [List.map_append,List.map_cons] at parts
  obtain ⟨before,rest,rfl,_,later⟩ := List.map_eq_append_iff.mp parts
  obtain ⟨⟨kw',arg'⟩,after,rfl,statement,_⟩ := List.map_eq_cons_iff.mp later
  obtain ⟨rfl,argument⟩ := Prod.mk.inj statement
  obtain ⟨s,t,early,here,_⟩ := runAll_middle.mp ran
  have adds := runAll_adds before rfl early
  rw [Statement.run,adds.mode] at here
  dsimp only [configAlloc] at here
  rw [known] at here
  simp only [Option.ite_none_left_eq_some] at here
  exact ⟨arg',s,t,argument,here.2⟩

include rep

/-- The file is accepted where the statement appends a number, which is kept. -/
theorem File.accepted {n : Int} (ran : arg.run host kw file.mid fn = some (configAppend file.mid kw (.integer n))) :
    ∃ cf, configParse host file.text (configAlloc mode) = .ok cf ∧ cf.value kw = some (.integer n) ∧
      cf.early = false := by
  obtain ⟨quiet,written⟩ := file.written word plain data
  obtain ⟨final,later,complete⟩ := file.fine n
  have here : Statement.run host file.mid ⟨kw,arg⟩ = some (configAppend file.mid kw (.integer n)) := by
    rw [Statement.run,file.mid_mode]
    dsimp only
    rw [known]
    dsimp only
    rw [rep,configPresent,file.unset]
    exact ran
  have all := runAll_middle.mpr ⟨_,_,file.ran,here,later⟩
  have single := single_of_found known rep
  have unearly : (configAppend file.mid kw (.integer n)).early = false := file.mid_early
  have adds := runAll_adds file.behind unearly later
  have there : (configAppend file.mid kw (.integer n)).value kw = some (.integer n) := by
    rw [configAppend_value,file.unset,if_pos rfl,Option.none_or]
  refine ⟨afterParse final,configParse_iff.mpr ⟨quiet,_,final,written,all,complete,rfl⟩,?_,?_⟩
  · rw [afterParse_value]
    exact adds.kept kw _ (statements_shared single.own) there
  · rw [afterParse_early]
    exact adds.early.trans unearly

end

end

/-- A file with a number that is too big is rejected. -/
theorem File.rejected {kw : Str} {d : Numeral} {more : List Lexeme} (file : File host mode kw (d.lexeme :: more))
    (big : intMax < d.value) (word : (Lexeme.word kw).Plain) (plain : ∀ l ∈ more, l.Plain) (cf : Config) :
    configParse host file.text (configAlloc mode) ≠ .ok cf := by
  intro accepted
  obtain ⟨⟨l,sep⟩,rest,own,rfl,behind⟩ := List.map_eq_cons_iff.mp file.lexemes
  obtain ⟨⟨l',sep'⟩,rest,rfl,rfl,last⟩ := List.map_eq_cons_iff.mp behind
  have shape : file.ahead ++ file.own ++ file.after =
      (file.ahead ++ [(Lexeme.word kw,sep)]) ++ (d.lexeme,sep') :: (rest ++ file.after) := by
    rw [own]
    simp
  have layout := file.layout
  rw [shape] at layout
  refine (@complaints_tooBig mode) big layout ?_ ?_ ?_
  · intro i member
    rcases List.mem_append.mp member with ahead | here
    · exact file.plainAhead i ahead
    · rw [List.mem_singleton.mp here]
      exact word
  · intro i member
    rcases List.mem_append.mp member with inside | after
    · exact plain _ (last ▸ List.mem_map_of_mem inside)
    · exact file.plainAfter i after
  · rw [← shape]
    exact (configParse_iff.mp accepted).1

/-! ## Survival -/

/-- A number given in a file survives: the file is accepted exactly if the number
    is one of an `int`, and then the variable is replaced by it. -/
def Survives (host : Host) (mode : Mode) (text name : Str) (n : Nat) : Prop :=
  ((∃ cf, configParse host text (configAlloc mode) = .ok cf) ↔ n ≤ intMax) ∧
  ∀ cf, configParse host text (configAlloc mode) = .ok cf →
    (configInterpolateStr host (reference name) cf).1 = some (decimal n)

theorem survives_rejected {text name : Str} {n : Nat}
    (rejected : ∀ cf, configParse host text (configAlloc mode) ≠ .ok cf) :
    Survives host mode text name n ↔ intMax < n := by
  constructor
  · rintro ⟨accepted,_⟩
    by_contra fits
    obtain ⟨cf,there⟩ := accepted.mpr (Nat.not_lt.mp fits)
    exact rejected cf there
  · intro big
    refine ⟨⟨fun ⟨cf,there⟩ => absurd there (rejected cf),fun fits => absurd big (Nat.not_lt.mpr fits)⟩,
      ?_⟩
    intro cf there
    exact absurd there (rejected cf)

theorem survives_stored {text name : Str} {n : Nat} {stored : Int} (close : '}' ∉ name) (named : name ≠ [])
    (accepted : ∃ cf, configParse host text (configAlloc mode) = .ok cf ∧
      cf.value name = some (.integer stored) ∧ cf.early = false) :
    Survives host mode text name n ↔ n ≤ intMax ∧ stored = n := by
  obtain ⟨cf,there,value,late⟩ := accepted
  have printed := prints_integer close named late (@configFind_present host _ _ _ value)
  constructor
  · rintro ⟨fits,prints⟩
    have same := prints cf there
    rw [printed] at same
    exact ⟨fits.mp ⟨cf,there⟩,decimal_injective (Option.some.inj same)⟩
  · rintro ⟨fits,rfl⟩
    refine ⟨⟨fun _ => fits,fun _ => ⟨cf,there⟩⟩,?_⟩
    intro cf' there'
    rw [there] at there'
    cases there'
    exact printed

/-- What is read of a number that was stored as `i64`. -/
theorem i64_eq_iff {n : Nat} (fits : n ≤ intMax) : host.i64 n = n ↔ host.bigEndian = false ∨ n = 0 := by
  cases big : host.bigEndian with
  | false => simp [i64_of_fits big fits]
  | true =>
    unfold intMax at fits
    rw [Host.i64,if_pos big]
    simp only [Int.reducePow,Bool.true_eq_false,false_or]
    omega

/-- The text of `keep` survives on little endian machines, and elsewhere where it
    is zero or rejected anyway. -/
theorem keep_survives_iff {d : Numeral} (file : File host mode "keep".toList [d.lexeme]) :
    Survives host mode file.text "keep".toList d.value ↔ host.bigEndian = false ∨ d.value = 0 ∨ intMax < d.value := by
  have word : (Lexeme.word "keep".toList).Plain ∧ meaning mode (.word "keep".toList) = .keyword "keep".toList :=
    ⟨by decide,by cases mode <;> decide⟩
  obtain ⟨gr,known,rep⟩ : ∃ gr, configFindGrammarForKeyword mode "keep".toList = some (gr,.integer) ∧
    gr.flags.rep = false := by
    cases mode <;> exact ⟨_,rfl,rfl⟩
  by_cases big : intMax < d.value
  · rw [survives_rejected (file.rejected big word.1 (by simp))]
    simp [big]
  have fits := Nat.not_lt.mp big
  have plain : ∀ l ∈ [d.lexeme], l.Plain := fun l member => List.mem_singleton.mp member ▸ d.plain fits
  have accepted := @File.accepted host mode _ _ file gr .integer known rep word plain (.integer d.value) rfl _ rfl
  rw [survives_stored (by decide) (by decide) accepted,i64_eq_iff fits]
  simp [big,fits]

/-- The token of a unit of time. -/
def unitType : TimeUnit → TokenType
  | .seconds => .seconds
  | .minutes => .minutes
  | .hours => .hours

theorem seconds_eq {n : Nat} (u : TimeUnit) (small : n ≤ intMax) :
    seconds host n (unitType u) =
      if host.bigEndian = true then some 0 else if u.scalar*n ≤ intMax
        then some ((u.scalar*n : Nat) : Int) else none := by
  have factor : scalar (unitType u) = some (u.scalar : Int) := by cases u <;> rfl
  rw [seconds,factor,Option.bind_some]
  cases big : host.bigEndian with
  | true =>
    have zero : host.i64 n = 0 := by
      unfold intMax at small
      rw [Host.i64,if_pos big]
      simp only [Int.reducePow]
      omega
    rw [zero,Int.mul_zero]
    rfl
  | false =>
    have product : (u.scalar : Int)*(n : Int) = ((u.scalar*n : Nat) : Int) := (Int.natCast_mul _ _).symm
    rw [i64_of_fits big small,product,if_neg Bool.false_ne_true]
    by_cases fits : u.scalar*n ≤ intMax
    · rw [if_pos fits,if_pos]
      unfold intMax at fits
      exact i32_of_bounds (by omega) (by omega)
    · rw [if_neg fits,if_neg]
      unfold intMax at fits
      have := i32_lt ((u.scalar*n : Nat) : Int)
      omega

/-- The text of `regress-timeout` survives on little endian machines, and elsewhere
    where the digits are zero or rejected anyway. -/
theorem timeout_survives_iff {d : Numeral} {u : TimeUnit}
    (file : File host .robsdRegress "regress-timeout".toList [d.lexeme,.word u.word]) :
    Survives host .robsdRegress file.text "regress-timeout".toList (u.scalar*d.value) ↔
      host.bigEndian = false ∨ d.value = 0 ∨ intMax < d.value := by
  have word : (Lexeme.word "regress-timeout".toList).Plain ∧
      meaning .robsdRegress (.word "regress-timeout".toList) = .keyword "regress-timeout".toList :=
        ⟨by decide,by decide⟩
  obtain ⟨gr,known,rep⟩ : ∃ gr, configFindGrammarForKeyword .robsdRegress "regress-timeout".toList =
    some (gr,.timeout) ∧
      gr.flags.rep = false := ⟨_,rfl,rfl⟩
  have unit : (Lexeme.word u.word).Plain ∧ meaning .robsdRegress (.word u.word) = .other (unitType u) := by
    cases u <;> exact ⟨by decide,by decide⟩
  have positive : 1 ≤ u.scalar := by cases u <;> decide
  have larger : d.value ≤ u.scalar*d.value := Nat.le_mul_of_pos_left _ positive
  by_cases big : intMax < d.value
  · rw [survives_rejected (file.rejected big word.1 fun l member => List.mem_singleton.mp member ▸ unit.1)]
    simp [big,Nat.lt_of_lt_of_le big larger]
  have small := Nat.not_lt.mp big
  have plain : ∀ l ∈ [d.lexeme,.word u.word], l.Plain := by
    intro l member
    simp only [List.mem_cons,List.not_mem_nil,or_false] at member
    rcases member with rfl | rfl
    · exact d.plain small
    · exact unit.1
  have data : [d.lexeme,.word u.word].map (meaning .robsdRegress) = (Argument.timeout d.value (unitType u)).data := by
    rw [List.map_cons,List.map_singleton,unit.2]
    rfl
  have scaled := @seconds_eq host _ u small
  by_cases little : host.bigEndian = true
  · rw [if_pos little] at scaled
    have accepted := @File.accepted host _ _ _ file gr .timeout known rep word plain _ data 0
      (by rw [Argument.run,scaled]; rfl)
    rw [survives_stored (by decide) (by decide) accepted]
    simp only [little,big,Bool.true_eq_false,false_or,or_false]
    constructor
    · rintro ⟨_,zero⟩
      omega
    · rintro zero
      rw [zero,Nat.mul_zero]
      exact ⟨Nat.zero_le _,rfl⟩
  rw [if_neg little] at scaled
  by_cases fits : u.scalar*d.value ≤ intMax
  · rw [if_pos fits] at scaled
    have accepted := @File.accepted host _ _ _ file gr .timeout known rep word plain _ data _
      (by rw [Argument.run,scaled]; rfl)
    rw [survives_stored (by decide) (by decide) accepted]
    simp [little,fits]
  · rw [if_neg fits] at scaled
    have rejected : ∀ cf, configParse host file.text (configAlloc .robsdRegress) ≠ .ok cf := by
      intro cf accepted
      obtain ⟨arg,s,t,same,ran⟩ := file.run_of_accepted known word plain data accepted
      cases arg <;> try cases ran
      next n unit =>
      simp only [Argument.data,List.cons.injEq,Datum.integer.injEq,Datum.other.injEq,and_true] at same
      rw [Argument.run,same.1,same.2,scaled] at ran
      cases ran
    rw [survives_rejected rejected]
    simp [little,Nat.not_le.mp fits]

theorem ncpu_survives_iff {text : Str} {cf : Config} (accepted : configParse host text (configAlloc mode) = .ok cf) :
    (configInterpolateStr host (reference ncpu) cf).1 = some (decimal (onlineProcessors host)) ↔
      if host.bigEndian = true then host.processors = 0
        else -2147483648 ≤ host.processors ∧ host.processors ≤ 2147483647 := by
  have read : (configInterpolateStr host (reference ncpu) cf).1 = some (decimal (onlineProcessors host)) ↔
      host.i64 (onlineProcessors host) = onlineProcessors host := by
    rw [prints_ncpu accepted,Option.some.injEq]
    exact ⟨decimal_injective,fun same => by rw [same]⟩
  rw [read,Host.i64,onlineProcessors]
  by_cases big : host.bigEndian = true
  · rw [if_pos big,if_pos big]
    simp only [Int.reducePow]
    split <;> omega
  · rw [if_neg big,if_neg big]
    have low := @Int.le_bmod (if host.processors = -1 then 1 else host.processors) (2^32) (by decide)
    have high := i32_lt (if host.processors = -1 then 1 else host.processors)
    unfold i32 at high
    constructor
    · intro same
      rw [same] at low high
      simp only [Nat.reducePow] at low
      split at low <;> omega
    · rintro ⟨above,below⟩
      refine i32_of_bounds ?_ ?_ <;> split <;> omega

/-! ## Two files -/

theorem layout_last (front last : List Lexeme) : Layout [] (spaced front ++ spaced last ++ []) := by
  have layout := layout_spaced (front ++ last)
  rw [spaced,List.map_append] at layout
  rw [List.append_nil]
  exact layout

/-- A big endian machine. -/
def bigEndianHost : Host := { sampleHost with bigEndian := true }

/-- The statements that a canvas needs. -/
def canvasStatements : List Statement := [
  ⟨"canvas-name".toList,.string "c".toList⟩,
  ⟨"canvas-dir".toList,.string "/home/canvas".toList⟩,
  ⟨"step".toList,.step "a".toList [.command ["true".toList]]⟩]

/-- What the statements leave. -/
def canvasConfig : Config := {
  mode := .canvas
  vars := [("canvas-name".toList,.string "c".toList),("canvas-dir".toList,.string "/home/canvas".toList),
    ("robsddir".toList,.string "/home/canvas".toList),("step".toList,.invalid)]
  canvasSteps := [⟨"a".toList,["env".toList,"true".toList],false⟩] }

def canvasLexemes : List Lexeme := [.word "canvas-name".toList,.string "c".toList,
  .word "canvas-dir".toList,.string "/home/canvas".toList,
  .word "step".toList,.string "a".toList,.word "command".toList,.lbrace,.string "true".toList,.rbrace]

def seven : Numeral := ⟨['7'],by decide,by decide⟩

theorem canvas_plain : ∀ i ∈ spaced canvasLexemes, i.1.Plain := by decide

theorem canvas_data :
    (spaced canvasLexemes).map (fun i => meaning .canvas i.1) = canvasStatements.flatMap Statement.data := by
  decide

theorem canvas_ran :
    runAll bigEndianHost canvasStatements (configAlloc .canvas) = some canvasConfig := by decide +kernel

theorem canvas_unset : canvasConfig.value "keep".toList = none := by decide

/-- A canvas with `keep 7` in its last line. -/
def keepFile : File bigEndianHost .canvas "keep".toList [seven.lexeme] where
  first := []
  ahead := spaced canvasLexemes
  own := spaced [.word "keep".toList,seven.lexeme]
  after := []
  front := canvasStatements
  behind := []
  mid := canvasConfig
  layout := layout_last _ _
  lexemes := spaced_fst _
  plainAhead := canvas_plain
  plainAfter _ inside := nomatch inside
  aheadData := canvas_data
  afterData := rfl
  ran := canvas_ran
  unset := canvas_unset
  fine _ := ⟨_,rfl,rfl⟩

/-- What a regress run needs. -/
def suiteStatements : List Statement := [
  ⟨"robsddir".toList,.string "/home/robsd".toList⟩,
  ⟨"regress".toList,.suite "bin/cat".toList []⟩]

def suiteConfig : Config := {
  mode := .robsdRegress
  vars := [("robsddir".toList,.string "/home/robsd".toList),("regress".toList,.list ["bin/cat".toList])] }

def suiteLexemes : List Lexeme := [.word "robsddir".toList,.string "/home/robsd".toList,
  .word "regress".toList,.string "bin/cat".toList]

/-- A configuration with `regress-timeout 7 h` in its last line. -/
def timeoutFile : File sampleHost .robsdRegress "regress-timeout".toList [seven.lexeme,.word TimeUnit.hours.word] where
  first := []
  ahead := spaced suiteLexemes
  own := spaced [.word "regress-timeout".toList,seven.lexeme,.word TimeUnit.hours.word]
  after := []
  front := suiteStatements
  behind := []
  mid := suiteConfig
  layout := layout_last _ _
  lexemes := spaced_fst _
  plainAhead := by decide
  plainAfter _ inside := nomatch inside
  aheadData := by decide
  afterData := rfl
  ran := by decide +kernel
  unset := by decide
  fine _ := ⟨_,rfl,rfl⟩

/-! ## Every integer -/

/-- The numbers of a configuration survive exactly where the half of the union that
    is read holds the number: everywhere on little endian machines, as far as `int`
    goes, and on big endian ones where it is zero or rejected anyway. -/
theorem integers_survive_iff (host : Host) :
    (∀ (mode : Mode) (d : Numeral) (file : File host mode "keep".toList [d.lexeme]),
      Survives host mode file.text "keep".toList d.value ↔ host.bigEndian = false ∨ d.value = 0 ∨ intMax < d.value) ∧
    (∀ (d : Numeral) (u : TimeUnit) (file : File host .robsdRegress "regress-timeout".toList [d.lexeme,.word u.word]),
      Survives host .robsdRegress file.text "regress-timeout".toList (u.scalar*d.value) ↔
        host.bigEndian = false ∨ d.value = 0 ∨ intMax < d.value) ∧
    ∀ (mode : Mode) (text : Str) (cf : Config), configParse host text (configAlloc mode) = .ok cf →
      ((configInterpolateStr host (reference ncpu) cf).1 = some (decimal (onlineProcessors host)) ↔
        if host.bigEndian = true then host.processors = 0
          else -2147483648 ≤ host.processors ∧ host.processors ≤ 2147483647) :=
  ⟨fun _ _ => keep_survives_iff,fun _ _ => timeout_survives_iff,fun _ _ _ => ncpu_survives_iff⟩

theorem integers_survive_iff_canvas :
    ¬ Survives bigEndianHost .canvas keepFile.text "keep".toList 7 ∧
    Survives sampleHost .robsdRegress timeoutFile.text "regress-timeout".toList 25200 ∧
    ∃ cf, configParse sampleHost (canvasText "") (configAlloc .canvas) = .ok cf ∧
      ((configInterpolateStr sampleHost (reference ncpu) cf).1 = some (decimal (onlineProcessors sampleHost)) ↔
        -2147483648 ≤ sampleHost.processors ∧ sampleHost.processors ≤ 2147483647) := by
  have keep := (integers_survive_iff bigEndianHost).1 .canvas seven keepFile
  have timeout := (integers_survive_iff sampleHost).2.1 seven .hours timeoutFile
  refine ⟨fun survives => absurd (keep.mp survives) (by decide),timeout.mpr (.inl rfl),?_⟩
  have run : (configParse sampleHost (canvasText "") (configAlloc .canvas)).isOk = true := by decide +kernel
  cases parsed : configParse sampleHost (canvasText "") (configAlloc .canvas) with
  | error log =>
    rw [parsed] at run
    cases run
  | ok cf => exact ⟨cf,rfl,(integers_survive_iff sampleHost).2.2 .canvas _ cf parsed⟩

/-- On a big endian machine `keep 7` keeps nothing. -/
theorem keep_big_endian :
    ¬ ∀ (host : Host) (mode : Mode) (d : Numeral) (file : File host mode "keep".toList [d.lexeme]),
    Survives host mode file.text "keep".toList d.value := by
  intro all
  have survives := (keep_survives_iff keepFile).mp (all bigEndianHost .canvas seven keepFile)
  exact absurd survives (by decide)

end Robsd.IntegerStorage
