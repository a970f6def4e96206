import Mathlib.Data.List.TakeWhile
import Robsd.Strings

/-!
Markup in the abstract: elements with attributes and texts, printed with one tag or text
a line and two blanks for each level, and read again. What is read is what was printed
(`readForest_lines`), provided that nothing in it is taken for markup itself.
-/
namespace Robsd.Markup
open Robsd.Strings

/-- Elements and texts that follow each other. -/
inductive Forest where
  | nil
  | text (s : Str) (rest : Forest)
  | element (tag : Str) (attrs : List (Str × Str)) (kids rest : Forest)
  deriving DecidableEq

namespace Forest

def append : Forest → Forest → Forest
  | .nil, g => g
  | .text s rest, g => .text s (rest.append g)
  | .element tag attrs kids rest, g => .element tag attrs kids (rest.append g)

/-- Several forests in a row. -/
def concat : List Forest → Forest
  | [] => .nil
  | f :: fs => f.append (concat fs)

def leaf (s : Str) : Forest := .text s .nil

def node (tag : Str) (attrs : List (Str × Str)) (kids : Forest) : Forest := .element tag attrs kids .nil

def size : Forest → Nat
  | .nil => 0
  | .text _ rest => rest.size+1
  | .element _ _ kids rest => kids.size+rest.size+1

@[simp] theorem append_nil (f : Forest) : f.append .nil = f := by
  induction f with
  | nil => rfl
  | text s rest ih => rw [append,ih]
  | element tag attrs kids rest _ ih => rw [append,ih]

end Forest

/-! ## Printing -/

def indent : Nat → Str
  | 0 => []
  | d+1 => ' ' :: ' ' :: indent d

def attr (a : Str × Str) : Str := ' ' :: (a.1 ++ '=' :: '"' :: (a.2 ++ ['"']))

def openTag (tag : Str) (attrs : List (Str × Str)) : Str := '<' :: (tag ++ (attrs.flatMap attr ++ ['>']))

def closeTag (tag : Str) : Str := '<' :: '/' :: (tag ++ ['>'])

/-- The lines of a forest at a level. -/
def lines (d : Nat) : Forest → List Str
  | .nil => []
  | .text s rest => (indent d ++ s) :: lines d rest
  | .element tag attrs kids rest =>
    (indent d ++ openTag tag attrs) :: (lines (d+1) kids ++ (indent d ++ closeTag tag) :: lines d rest)

/-- Lines that are ended. -/
def unlines (ls : List Str) : Str := ls.flatMap (· ++ ['\n'])

def print (d : Nat) (f : Forest) : Str := unlines (lines d f)

@[simp] theorem unlines_append (ls ms : List Str) : unlines (ls ++ ms) = unlines ls ++ unlines ms := List.flatMap_append

@[simp] theorem unlines_cons (l : Str) (ls : List Str) :
    unlines (l :: ls) = l ++ '\n' :: unlines ls := by simp [unlines]

@[simp] theorem unlines_nil : unlines [] = [] := rfl

@[simp] theorem lines_append (d : Nat) (f g : Forest) : lines d (f.append g) = lines d f ++ lines d g := by
  induction f generalizing d with
  | nil => rfl
  | text s rest ih => simp [Forest.append,lines,ih]
  | element tag attrs kids rest _ ih => simp [Forest.append,lines,ih]

@[simp] theorem print_append (d : Nat) (f g : Forest) : print d (f.append g) = print d f ++ print d g := by simp [print]

theorem lines_length (d : Nat) (f : Forest) : f.size ≤ (lines d f).length := by
  induction f generalizing d with
  | nil => exact Nat.zero_le _
  | text s rest ih =>
    have := ih d
    simp only [Forest.size,lines,List.length_cons]
    omega
  | element tag attrs kids rest ihKids ih =>
    have first := ihKids (d+1)
    have second := ih d
    simp only [Forest.size,lines,List.length_cons,List.length_append]
    omega

/-! ## Reading -/

/-- The lines of a text. -/
def splitLines : Str → List Str
  | [] => []
  | c :: cs =>
    if c = '\n' then [] :: splitLines cs
    else match splitLines cs with
      | [] => [[c]]
      | l :: ls => (c :: l) :: ls

/-- Attributes up to the end of a tag. -/
def readAttrs : Nat → Str → Option (List (Str × Str))
  | 0, _ => none
  | k+1, s =>
    if s = ['>'] then some []
    else match s with
      | ' ' :: cs =>
        match cs.dropWhile (· ≠ '=') with
        | '=' :: '"' :: vs =>
          match vs.dropWhile (· ≠ '"') with
          | '"' :: more => (readAttrs k more).map ((cs.takeWhile (· ≠ '='),vs.takeWhile (· ≠ '"')) :: ·)
          | _ => none
        | _ => none
      | _ => none

/-- The tag and the attributes of a line behind its `<`. -/
def readTag (s : Str) : Option (Str × List (Str × Str)) :=
  (readAttrs (s.length+1) (s.dropWhile fun c => c ≠ ' ' && c ≠ '>')).map fun attrs =>
    (s.takeWhile fun c => c ≠ ' ' && c ≠ '>',attrs)

/-- What is at a level, up to the end of the element around it, and the lines after
    that. -/
def readForest : Nat → Nat → List Str → Option (Forest × List Str)
  | 0, _, _ => none
  | _+1, _, [] => some (.nil,[])
  | k+1, d, l :: ls =>
    if indent d <+: l then
      match l.drop (2*d) with
      | '<' :: '/' :: _ => some (.nil,l :: ls)
      | '<' :: cs => do
        let (tag,attrs) ← readTag cs
        let (kids,ls) ← readForest k (d+1) ls
        match ls with
        | [] => none
        | c :: ls =>
          if c = indent d ++ closeTag tag then do
            let (rest,ls) ← readForest k d ls
            some (.element tag attrs kids rest,ls)
          else none
      | s => do
        let (rest,ls) ← readForest k d ls
        some (.text s rest,ls)
    else some (.nil,l :: ls)

/-! ## What is printed is read -/

/-- A text that is not taken for a tag. -/
structure PlainText (s : Str) : Prop where
  line : '\n' ∉ s
  tag : s.head? ≠ some '<'

instance (s : Str) : Decidable (PlainText s) :=
  decidable_of_iff ('\n' ∉ s ∧ s.head? ≠ some '<') ⟨fun both => ⟨both.1,both.2⟩,fun plain => ⟨plain.line,plain.tag⟩⟩

/-- A name of an element. -/
structure PlainTag (s : Str) : Prop where
  line : '\n' ∉ s
  blank : ' ' ∉ s
  ends : '>' ∉ s
  slash : s.head? ≠ some '/'

/-- An attribute whose end is seen. -/
structure PlainAttr (a : Str × Str) : Prop where
  lineKey : '\n' ∉ a.1
  lineValue : '\n' ∉ a.2
  key : '=' ∉ a.1
  value : '"' ∉ a.2

instance (s : Str) : Decidable (PlainTag s) :=
  decidable_of_iff ('\n' ∉ s ∧ ' ' ∉ s ∧ '>' ∉ s ∧ s.head? ≠ some '/')
    ⟨fun all => ⟨all.1,all.2.1,all.2.2.1,all.2.2.2⟩,fun plain => ⟨plain.line,plain.blank,plain.ends,plain.slash⟩⟩

/-- Nothing in a forest is taken for markup. -/
def Plain : Forest → Prop
  | .nil => True
  | .text s rest => PlainText s ∧ Plain rest
  | .element tag attrs kids rest => PlainTag tag ∧ (∀ a ∈ attrs, PlainAttr a) ∧ Plain kids ∧ Plain rest

@[simp] theorem plain_append (f g : Forest) : Plain (f.append g) ↔ Plain f ∧ Plain g := by
  induction f with
  | nil => simp [Forest.append,Plain]
  | text s rest ih => simp [Forest.append,Plain,ih,and_assoc]
  | element tag attrs kids rest _ ih => simp [Forest.append,Plain,ih,and_assoc]

@[simp] theorem plain_leaf {s : Str} : Plain (.leaf s) ↔ PlainText s := and_iff_left trivial

@[simp] theorem plain_node {tag : Str} {attrs : List (Str × Str)} {kids : Forest} :
    Plain (.node tag attrs kids) ↔ PlainTag tag ∧ (∀ a ∈ attrs, PlainAttr a) ∧ Plain kids := by
  simp [Forest.node,Plain]

theorem plain_concat (fs : List Forest) : Plain (Forest.concat fs) ↔ ∀ f ∈ fs, Plain f := by
  induction fs with
  | nil => simp [Forest.concat,Plain]
  | cons f fs ih => simp [Forest.concat,ih]

theorem splitLines_line {l : Str} (single : '\n' ∉ l) (rest : Str) :
    splitLines (l ++ '\n' :: rest) = l :: splitLines rest := by
  induction l with
  | nil => simp [splitLines]
  | cons c l ih =>
    rw [List.mem_cons,not_or] at single
    have other : ¬ c = '\n' := fun same => single.1 same.symm
    rw [List.cons_append,splitLines,if_neg other,ih single.2]

theorem splitLines_unlines {ls : List Str} (single : ∀ l ∈ ls, '\n' ∉ l) : splitLines (unlines ls) = ls := by
  induction ls with
  | nil => rfl
  | cons l ls ih =>
    rw [unlines_cons,splitLines_line (single l List.mem_cons_self),ih fun m member =>
      single m (List.mem_cons_of_mem _ member)]

theorem takeWhile_until {p : Char → Bool} {s : Str} {c : Char} (rest : Str) (before : ∀ x ∈ s, p x)
    (stops : p c = false) :
    (s ++ c :: rest).takeWhile p = s ∧ (s ++ c :: rest).dropWhile p = c :: rest := by
  constructor
  · rw [List.takeWhile_append_of_pos before,List.takeWhile_cons,if_neg (by simp [stops]),List.append_nil]
  · rw [List.dropWhile_append_of_pos before,List.dropWhile_cons,if_neg (by simp [stops])]

theorem readAttrs_flatMap {attrs : List (Str × Str)} {k : Nat} (plain : ∀ a ∈ attrs, PlainAttr a)
    (enough : attrs.length < k) :
    readAttrs k (attrs.flatMap attr ++ ['>']) = some attrs := by
  induction attrs generalizing k with
  | nil =>
    obtain ⟨k,rfl⟩ := Nat.exists_eq_succ_of_ne_zero (Nat.ne_zero_of_lt enough)
    simp [readAttrs]
  | cons a attrs ih =>
    obtain ⟨k,rfl⟩ := Nat.exists_eq_succ_of_ne_zero (Nat.ne_zero_of_lt enough)
    obtain ⟨_,_,key,value⟩ := plain a List.mem_cons_self
    have rest := ih (k := k) (fun b member => plain b (List.mem_cons_of_mem _ member)) (by simpa using enough)
    have first := takeWhile_until (p := (· ≠ '=')) (c := '=') ('"' :: (a.2 ++ '"' :: (attrs.flatMap attr ++ ['>'])))
      (fun x member => decide_eq_true fun same => key (same ▸ member)) (by simp)
    have second := takeWhile_until (p := (· ≠ '"')) (c := '"') (attrs.flatMap attr ++ ['>'])
      (fun x member => decide_eq_true fun same => value (same ▸ member)) (by simp)
    have whole : (a :: attrs).flatMap attr ++ ['>'] = ' ' ::
      (a.1 ++ '=' :: '"' :: (a.2 ++ '"' :: (attrs.flatMap attr ++ ['>']))) := by
      simp [attr]
    rw [whole,readAttrs,if_neg (by simp)]
    simp only [first,second,rest,Option.map_some]

theorem attrs_length (attrs : List (Str × Str)) : attrs.length ≤ (attrs.flatMap attr).length := by
  induction attrs with
  | nil => exact Nat.zero_le _
  | cons a attrs ih =>
    simp only [List.flatMap_cons,List.length_append,List.length_cons,attr]
    omega

theorem readTag_openTag {tag : Str} {attrs : List (Str × Str)} (plain : PlainTag tag)
    (attrs_ : ∀ a ∈ attrs, PlainAttr a) :
    readTag (tag ++ (attrs.flatMap attr ++ ['>'])) = some (tag,attrs) := by
  obtain ⟨_,blank,ends,_⟩ := plain
  have inside : ∀ x ∈ tag, (x ≠ ' ' && x ≠ '>') = true := by
    intro x member
    have first : x ≠ ' ' := fun same => blank (same ▸ member)
    have second : x ≠ '>' := fun same => ends (same ▸ member)
    simp [first,second]
  have split : (tag ++ (attrs.flatMap attr ++ ['>'])).takeWhile (fun c => c ≠ ' ' && c ≠ '>') = tag ∧
      (tag ++ (attrs.flatMap attr ++ ['>'])).dropWhile (fun c => c ≠ ' ' && c ≠ '>') = attrs.flatMap attr ++ ['>'] := by
    cases attrs with
    | nil => exact takeWhile_until _ inside rfl
    | cons a attrs =>
      have blank : (a :: attrs).flatMap attr ++ ['>'] = ' ' ::
        (a.1 ++ '=' :: '"' :: (a.2 ++ '"' :: (attrs.flatMap attr ++ ['>']))) := by
        simp [attr]
      rw [blank]
      exact takeWhile_until _ inside rfl
  have many := attrs_length attrs
  simp only [readTag,split]
  rw [readAttrs_flatMap attrs_ (by simp only [List.length_append]; omega)]
  rfl

/-- An opening tag is not taken for a closing one. -/
theorem openTag_opens {tag : Str} {attrs : List (Str × Str)} (plain : PlainTag tag) (s : Str) :
    tag ++ (attrs.flatMap attr ++ ['>']) ≠ '/' :: s := by
  intro same
  cases tag with
  | nil => cases attrs <;> simp [attr] at same
  | cons c tag =>
    have first := (List.cons.inj same).1
    exact plain.slash (by rw [first]; rfl)

theorem indent_single (d : Nat) : '\n' ∉ indent d := by
  induction d with
  | zero => simp [indent]
  | succ d ih => simpa [indent] using ih

theorem attrs_single {attrs : List (Str × Str)} (plain : ∀ a ∈ attrs, PlainAttr a) : '\n' ∉ attrs.flatMap attr := by
  intro member
  obtain ⟨a,here,inside⟩ := List.mem_flatMap.mp member
  obtain ⟨key,value,_,_⟩ := plain a here
  simp [attr,key,value] at inside

/-- Every line of a plain forest is one line. -/
theorem lines_single {f : Forest} (plain : Plain f) (d : Nat) : ∀ l ∈ lines d f, '\n' ∉ l := by
  induction f generalizing d with
  | nil => simp [lines]
  | text s rest ih =>
    intro l member
    rcases List.mem_cons.mp member with rfl | later
    · simp [indent_single,plain.1.line]
    · exact ih plain.2 d l later
  | element tag attrs kids rest ihKids ih =>
    obtain ⟨plainTag,plainAttrs,plainKids,plainRest⟩ := plain
    intro l member
    rcases List.mem_cons.mp member with rfl | later
    · simp [openTag,indent_single,plainTag.line,attrs_single plainAttrs]
    rcases List.mem_append.mp later with inner | outer
    · exact ihKids plainKids (d+1) l inner
    rcases List.mem_cons.mp outer with rfl | later
    · simp [closeTag,indent_single,plainTag.line]
    · exact ih plainRest d l later

theorem indent_length (d : Nat) : (indent d).length = 2*d := by
  induction d with
  | zero => rfl
  | succ d ih => simp only [indent,List.length_cons,ih]; omega

/-- Less than a level is not a level. -/
theorem not_indent {d : Nat} {c : Char} {s : Str} (other : c ≠ ' ') : ¬ indent (d+1) <+: indent d ++ c :: s := by
  induction d with
  | zero =>
    rintro ⟨_,same⟩
    simp only [indent,List.nil_append,List.cons_append,List.cons.injEq] at same
    exact other same.1.symm
  | succ d ih =>
    rintro ⟨rest,same⟩
    rw [indent,indent] at same
    simp only [List.cons_append,List.cons.injEq,true_and] at same
    exact ih ⟨rest,same⟩

/-- Lines with which what is at a level ends. -/
def Stops (d : Nat) : List Str → Prop
  | [] => True
  | l :: _ => indent d <+: l → ∃ s, l.drop (2*d) = '<' :: '/' :: s

theorem readForest_stops {k d : Nat} {ls : List Str} (stops : Stops d ls) : readForest (k+1) d ls = some (.nil,ls) := by
  cases ls with
  | nil => rfl
  | cons l ls =>
    unfold readForest
    split_ifs with level
    · obtain ⟨s,closing⟩ := stops level
      simp only [closing]
    · rfl

theorem drop_indent (d : Nat) (s : Str) : (indent d ++ s).drop (2*d) = s := by
  rw [← indent_length d,List.drop_left]

/-- What is read at a level is what was printed there. -/
theorem readForest_lines {f : Forest} {k d : Nat} {ls : List Str} (plain : Plain f) (stops : Stops d ls)
    (enough : f.size < k) :
    readForest k d (lines d f ++ ls) = some (f,ls) := by
  induction f generalizing k d ls with
  | nil =>
    obtain ⟨k,rfl⟩ := Nat.exists_eq_succ_of_ne_zero (Nat.ne_zero_of_lt enough)
    exact readForest_stops stops
  | text s rest ih =>
    obtain ⟨k,rfl⟩ := Nat.exists_eq_succ_of_ne_zero (Nat.ne_zero_of_lt enough)
    have later := ih (k := k) plain.2 stops (by simp only [Forest.size] at enough; omega)
    have other := plain.1.tag
    simp only [lines,List.cons_append,readForest,List.prefix_append,↓reduceIte,drop_indent]
    split
    · simp at other
    · simp at other
    · simp [later]
  | element tag attrs kids rest ihKids ih =>
    obtain ⟨k,rfl⟩ := Nat.exists_eq_succ_of_ne_zero (Nat.ne_zero_of_lt enough)
    obtain ⟨plainTag,plainAttrs,plainKids,plainRest⟩ := plain
    simp only [Forest.size] at enough
    have closing : Stops (d+1) ((indent d ++ closeTag tag) :: (lines d rest ++ ls)) :=
      fun level => absurd level (not_indent (by decide))
    have inner := ihKids (k := k) plainKids closing (by omega)
    have later := ih (k := k) plainRest stops (by omega)
    have opening := readTag_openTag plainTag plainAttrs
    have slash := plainTag.slash
    simp only [lines,List.cons_append,List.append_assoc,readForest,List.prefix_append,↓reduceIte,drop_indent,openTag]
    split
    · rename_i same
      exact absurd (List.cons.inj same).2 (openTag_opens plainTag _)
    · rename_i same
      obtain rfl := (List.cons.inj same).2
      rw [opening]
      simp only [Option.bind_eq_bind,Option.bind_some,inner,↓reduceIte,later]
    · rename_i _ other
      exact absurd rfl (other _)

end Robsd.Markup
