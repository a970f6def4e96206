import Mathlib.Data.List.Infix
import Mathlib.Data.List.TakeWhile
import Robsd.Strings

/-!
The tags of an invocation: how `invocation_has_tag` (invocation.c) looks for a
tag in the content of the tags file, and in which files it finds every word.
-/
namespace Robsd.Tags
open Robsd.Strings

/-- `strstr`: the text before the first occurrence and the text from it on. -/
def strstr (needle : Str) : Str → Option (Str × Str)
  | [] => if needle = [] then some ([],[]) else none
  | c :: cs =>
    if needle.isPrefixOf (c :: cs) then some ([],c :: cs)
    else (strstr needle cs).map fun found => (c :: found.1,found.2)

/-- The content of a buffer up to its first NUL. -/
def cString (content : Str) : Str := content.takeWhile (· ≠ nul)

/-- `invocation_has_tag` on the content of the tags file, none if it cannot be read. -/
def invocationHasTag (tags : Option Str) (tag : Arg) : Bool :=
  match tags with
  | none => false
  | some content =>
    match strstr tag.str (cString content) with
    | none => false
    | some (before,str) =>
      let behind := str.drop tag.str.length
      (before = [] || before.getLast? = some ' ') &&
        (behind = [] || behind.head? = some ' ' || behind.head? = some '\n')

/-! ## Words -/

/-- The characters between tags. -/
def isSeparator (c : Char) : Bool := c = ' ' || c = '\n'

/-- What stands between the separators, each piece with the separator before it. -/
def pieces (before : Char) : Str → List (Char × Str)
  | [] => [(before,[])]
  | c :: cs =>
    if isSeparator c then (before,[]) :: pieces c cs
    else match pieces before cs with
      | [] => []
      | (b,w) :: more => (b,c :: w) :: more

/-- The words of a text. -/
def words (text : Str) : List Str := ((pieces ' ' text).map Prod.snd).filter (· ≠ [])

/-- The first piece that contains the tag is the tag itself, at the start of the
    text or behind a space. -/
def Foremost (tag text : Str) : Prop := (pieces ' ' text).find? (fun p => decide (tag <:+: p.2)) = some (' ',tag)

instance (tag text : Str) : Decidable (Foremost tag text) := inferInstanceAs (Decidable (_ = _))

theorem pieces_word : ∀ (w : Str) (before : Char), (∀ c ∈ w, isSeparator c = false) → pieces before w = [(before,w)]
  | [],before,_ => rfl
  | c :: w,before,inside => by
    have here := inside c (by simp)
    rw [pieces,if_neg (by simp [here]),pieces_word w before fun d member => inside d (by simp [member])]

theorem pieces_separator {c : Char} (separates : isSeparator c = true) (rest : Str) : ∀ (w : Str) (before : Char),
    (∀ d ∈ w, isSeparator d = false) → pieces before (w ++ c :: rest) = (before,w) :: pieces c rest
  | [],before,_ => by rw [List.nil_append,pieces,if_pos separates]
  | d :: w,before,inside => by
    have here := inside d (by simp)
    rw [List.cons_append,pieces,if_neg (by simp [here]),
      pieces_separator separates rest w before fun e member => inside e (by simp [member])]

/-- A text is a word, or a word with a separator and a text behind it. -/
theorem word_split : ∀ text : Str, (∀ c ∈ text, isSeparator c = false) ∨
    ∃ w c rest, text = w ++ c :: rest ∧ (∀ d ∈ w, isSeparator d = false) ∧ isSeparator c = true
  | [] => .inl (by simp)
  | c :: cs => by
    by_cases separates : isSeparator c = true
    · exact .inr ⟨[],c,cs,rfl,by simp,separates⟩
    replace separates : isSeparator c = false := by simpa using separates
    rcases word_split cs with word | ⟨w,d,rest,rfl,word,ends⟩
    · exact .inl (by simpa [separates] using word)
    · exact .inr ⟨c :: w,d,rest,rfl,by simpa [separates] using word,ends⟩

/-! ## The first occurrence -/

/-- Nothing behind a word, or a separator. -/
def Ends (rest : Str) : Prop := ∀ c ∈ rest.head?, isSeparator c = true

section
variable {tag : Str} (plain : ∀ c ∈ tag, isSeparator c = false)
include plain

/-- A tag does not reach past the end of a word. -/
theorem prefix_word {w rest : Str} (ends : Ends rest) (first : tag <+: w ++ rest) : tag <+: w := by
  by_cases short : tag.length ≤ w.length
  · exact List.prefix_of_prefix_length_le first (List.prefix_append w rest) short
  · obtain ⟨more,rfl⟩ := List.prefix_of_prefix_length_le (List.prefix_append w rest) first (by omega)
    cases more with
    | nil => simp at short
    | cons c more =>
      have behind := (List.prefix_append_right_inj w).mp first
      obtain ⟨tail,rfl⟩ := behind
      have separates := ends c (by simp)
      rw [plain c (by simp)] at separates
      cases separates

theorem strstr_inside {rest : Str} (ends : Ends rest) : ∀ w : Str, tag <:+: w →
    ∃ u v, w = u ++ (tag ++ v) ∧ strstr tag (w ++ rest) = some (u,tag ++ (v ++ rest))
  | [],inside => by
    have empty : tag = [] := List.infix_nil.mp inside
    subst empty
    refine ⟨[],[],rfl,?_⟩
    cases rest <;> simp [strstr]
  | c :: cs,inside => by
    by_cases first : tag <+: c :: cs ++ rest
    · obtain ⟨v,split⟩ := prefix_word plain ends first
      refine ⟨[],v,split.symm,?_⟩
      rw [List.cons_append] at first ⊢
      rw [strstr,if_pos (List.isPrefixOf_iff_prefix.mpr first),← List.cons_append,← split,List.append_assoc]
    · have later : tag <:+: cs := by
        rcases List.infix_cons_iff.mp inside with here | later
        · exact absurd (here.trans (List.prefix_append (c :: cs) rest)) first
        · exact later
      obtain ⟨u,v,rfl,found⟩ := strstr_inside ends cs later
      refine ⟨c :: u,v,rfl,?_⟩
      rw [List.cons_append,strstr,if_neg (by rw [List.isPrefixOf_iff_prefix]; exact first),found]
      rfl

theorem strstr_outside {rest : Str} (ends : Ends rest) : ∀ w : Str, ¬ tag <:+: w →
    strstr tag (w ++ rest) = (strstr tag rest).map fun found => (w ++ found.1,found.2)
  | [],_ => by simp
  | c :: cs,outside => by
    have first : ¬ tag <+: c :: cs ++ rest := fun first => outside (prefix_word plain ends first).isInfix
    have later : ¬ tag <:+: cs := fun inside => outside (List.infix_cons_iff.mpr (.inr inside))
    rw [List.cons_append,strstr,if_neg (by rw [List.isPrefixOf_iff_prefix]; exact first),strstr_outside ends cs later]
    simp [Function.comp_def]

/-- What is checked around an occurrence, with the character before the text. -/
def stands (before : Char) (size : Nat) : Option (Str × Str) → Bool
  | none => false
  | some (u,str) =>
    (before :: u).getLast? = some ' ' &&
      (str.drop size = [] || (str.drop size).head? = some ' ' || (str.drop size).head? = some '\n')

omit plain in
theorem ends_checked {rest : Str} (ends : Ends rest) :
    (rest = [] || rest.head? = some ' ' || rest.head? = some '\n') = true := by
  cases rest with
  | nil => rfl
  | cons c rest => simpa [isSeparator] using ends c rfl

/-- Within a word the tag is only found if it is the word. -/
theorem stands_inside {before : Char} {w rest : Str} (word : ∀ c ∈ w, isSeparator c = false) (ends : Ends rest)
    (inside : tag <:+: w) :
    stands before tag.length (strstr tag (w ++ rest)) = true ↔ before = ' ' ∧ w = tag := by
  obtain ⟨u,v,split,found⟩ := strstr_inside plain ends w inside
  rw [found,stands,List.drop_left]
  constructor
  · intro checked
    obtain ⟨left,right⟩ := Bool.and_eq_true_iff.mp checked
    have start : u = [] := by
      rcases List.eq_nil_or_concat u with empty | ⟨u',c,rfl⟩
      · exact empty
      · have last : (before :: (u' ++ [c])).getLast? = some c := by
          rw [← List.cons_append]
          exact List.getLast?_concat
        have space : c = ' ' := by
          rw [List.concat_eq_append,last] at left
          simpa using left
        have letter := word c (by simp [split])
        rw [space] at letter
        cases letter
    have final : v = [] := by
      cases v with
      | nil => rfl
      | cons c v =>
        have letter := word c (by simp [split])
        have separates : isSeparator c = true := by simpa [isSeparator] using right
        rw [letter] at separates
        cases separates
    subst start final
    exact ⟨by simpa using left,by simpa using split⟩
  · rintro ⟨rfl,rfl⟩
    have lengths := congrArg List.length split
    simp only [List.length_append] at lengths
    have start : u = [] := List.length_eq_zero_iff.mp (by omega)
    have final : v = [] := List.length_eq_zero_iff.mp (by omega)
    subst start final
    simpa using ends_checked ends

/-- The tag is found exactly where the first piece that contains it is the tag
    behind a space. -/
theorem stands_iff (text : Str) (before : Char) : stands before tag.length (strstr tag text) = true ↔
    (pieces before text).find? (fun p => decide (tag <:+: p.2)) = some (' ',tag) := by
  induction size : text.length using Nat.strongRecOn generalizing text before with
  | _ n ih =>
    rcases word_split text with word | ⟨w,c,rest,rfl,word,separates⟩
    · rw [pieces_word text before word]
      by_cases inside : tag <:+: text
      · have within := @stands_inside _ plain before _ [] word (by simp [Ends]) inside
        rw [List.append_nil] at within
        rw [within]
        simp [inside]
      · have outside := @strstr_outside _ plain [] (by simp [Ends]) text inside
        have nonempty : tag ≠ [] := by
          rintro rfl
          exact inside List.nil_infix
        rw [List.append_nil,strstr,if_neg nonempty,Option.map_none] at outside
        rw [outside]
        simp [stands,inside]
    · have ends : Ends (c :: rest) := by simpa [Ends] using separates
      rw [pieces_separator separates rest w before word]
      by_cases inside : tag <:+: w
      · rw [stands_inside plain word ends inside]
        simp [inside]
      · have nonempty : tag ≠ [] := by
          rintro rfl
          exact inside List.nil_infix
        have apart : ¬ tag.isPrefixOf (c :: rest) = true := by
          rw [List.isPrefixOf_iff_prefix]
          intro first
          cases tag with
          | nil => exact nonempty rfl
          | cons d tag =>
            have same : d = c := (List.cons_prefix_cons.mp first).1
            have letter := plain d (by simp)
            rw [same,separates] at letter
            cases letter
        have later := ih rest.length (by simp [← size]; omega) rest c rfl
        rw [strstr_outside plain ends w inside,strstr,if_neg apart,List.find?_cons_of_neg (by simp [inside]),← later]
        cases strstr tag rest with
        | none => rfl
        | some found =>
          have last : (before :: (w ++ c :: found.1)).getLast? = (c :: found.1).getLast? := by
            rw [← List.cons_append]
            exact List.getLast?_append_of_ne_nil _ (List.cons_ne_nil _ _)
          simp only [Option.map_some,stands,last]

end

theorem stands_start (u str : Str) (size : Nat) : stands ' ' size (some (u,str)) =
    ((u = [] || u.getLast? = some ' ') &&
      (str.drop size = [] || (str.drop size).head? = some ' ' || (str.drop size).head? = some '\n')) := by
  cases u with
  | nil => rfl
  | cons c u => simp [stands,List.getLast?_cons_cons]

/-! ## Tags of an invocation -/

/-- `invocation_has_tag` gives one answer for every text: whether the tag is foremost in it. -/
theorem invocationHasTag_eq (content : Str) {tag : Arg} (plain : ∀ c ∈ tag.str, isSeparator c = false) :
    invocationHasTag (some content) tag = true ↔ Foremost tag.str (cString content) := by
  have checked : invocationHasTag (some content) tag =
    stands ' ' tag.str.length (strstr tag.str (cString content)) := by
    rw [invocationHasTag]
    cases strstr tag.str (cString content) with
    | none => rfl
    | some found => rw [stands_start]
  rw [checked,stands_iff plain]
  rfl

/-- What is foremost in a text is a word of it. -/
theorem foremost_word {text tag : Str} (nonempty : tag ≠ []) (foremost : Foremost tag text) : tag ∈ words text := by
  refine List.mem_filter.mpr ⟨?_,by simpa using nonempty⟩
  exact List.mem_map_of_mem (f := Prod.snd) (List.mem_of_find?_eq_some foremost)

/-- Where there is no NUL, a tag that is found is there. -/
theorem invocationHasTag_sound {content : Str} {tag : Arg} (plain : ∀ c ∈ tag.str, isSeparator c = false)
    (text : nul ∉ content) (nonempty : tag.str ≠ []) (found : invocationHasTag (some content) tag = true) :
    tag.str ∈ words content := by
  have whole : cString content = content :=
    List.takeWhile_eq_self_iff.mpr fun c member => decide_eq_true fun same => text (same ▸ member)
  rw [invocationHasTag_eq content plain,whole] at found
  exact foremost_word nonempty found

/-- A tag is found exactly where it is a word of the file, for the files in which
    it is foremost up to the first NUL if and only if it is a word. -/
theorem has_tag_iff (content : Str) (tag : Arg) (plain : ∀ c ∈ tag.str, isSeparator c = false) :
    (invocationHasTag (some content) tag = true ↔ tag.str ∈ words content) ↔
      if tag.str ∈ words content then Foremost tag.str (cString content) else ¬ Foremost tag.str (cString content) := by
  rw [invocationHasTag_eq content plain]
  by_cases member : tag.str ∈ words content
  · rw [if_pos member]
    exact ⟨fun same => same.mpr member,fun foremost => ⟨fun _ => member,fun _ => foremost⟩⟩
  · rw [if_neg member]
    exact ⟨fun same foremost => member (same.mp foremost),
      fun absent => ⟨fun foremost => absurd foremost absent,fun there => absurd there member⟩⟩

/-- The tag `cvs`. -/
def cvs : Arg := ⟨['c','v','s'],by decide⟩

theorem has_tag_iff_cvs : (invocationHasTag (some ['c','v','s','\n']) cvs = true ↔ cvs.str ∈ words ['c','v','s','\n']) ↔
    if cvs.str ∈ words ['c','v','s','\n'] then Foremost cvs.str (cString ['c','v','s','\n'])
    else ¬ Foremost cvs.str (cString ['c','v','s','\n']) :=
  has_tag_iff ['c','v','s','\n'] cvs (by decide)

/-- In `nocvs cvs` the tag is not found, nor on a line of its own below another one. -/
theorem has_tag_nocvs :
    ¬ (invocationHasTag (some ['n','o','c','v','s',' ','c','v','s','\n']) cvs = true ↔
        cvs.str ∈ words ['n','o','c','v','s',' ','c','v','s','\n']) ∧
      ¬ (invocationHasTag (some ['a','\n','c','v','s','\n']) cvs = true ↔
        cvs.str ∈ words ['a','\n','c','v','s','\n']) := by
  decide

end Robsd.Tags
