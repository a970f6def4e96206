import Mathlib.Data.List.Infix
import Mathlib.Data.List.TakeWhile
import Robsd.Strings

/-!
Patterns as `fnmatch` takes them without flags: stars, question marks, bracket
expressions and escaped characters. A pattern is read into atoms, and what the
atoms accept composes along them.
-/
namespace Robsd.Pattern
open Robsd.Strings

/-- A star, or a single character of some kind. -/
inductive Atom where
  | star
  | one (kind : Char → Bool)

/-- A character that stands for itself. -/
def Atom.char (c : Char) : Atom := .one (· = c)

/-! ## Reading a pattern -/

/-- The character classes in the C locale. -/
def classKind (name : Str) (c : Char) : Bool :=
  let upper := 'A' ≤ c && c ≤ 'Z'
  let graph := '!' ≤ c && c ≤ '~'
  let alnum := upper || islower c || isdigit c
  match String.ofList name with
  | "alnum" => alnum
  | "alpha" => upper || islower c
  | "blank" => c = ' ' || c = '\t'
  | "cntrl" => c < ' ' || c = '\x7f'
  | "digit" => isdigit c
  | "graph" => graph
  | "lower" => islower c
  | "print" => graph || c = ' '
  | "punct" => graph && !alnum
  | "space" => isspace c
  | "upper" => upper
  | "xdigit" => isdigit c || ('a' ≤ c && c ≤ 'f') || ('A' ≤ c && c ≤ 'F')
  | _ => false

/-- A character of a bracket expression, which may be escaped. -/
def element : Str → Option (Char × Str)
  | '\\' :: c :: rest => some (c,rest)
  | c :: rest => some (c,rest)
  | [] => none

theorem element_suffix {text rest : Str} {c : Char} (read : element text = some (c,rest)) :
    ∃ before, before ≠ [] ∧ text = before ++ rest := by
  unfold element at read
  split at read
  · cases read
    exact ⟨_,List.cons_ne_nil _ [_],rfl⟩
  · cases read
    exact ⟨[_],List.cons_ne_nil _ _,rfl⟩
  · cases read

/-- The members of a bracket expression up to the bracket that closes it, which the
    first one is not, and what follows it. -/
def members (first : Bool) (text : Str) : Option ((Char → Bool) × Str) :=
  match text with
  | ']' :: rest =>
    if first then (members false rest).map fun found => (fun c => c = ']' || found.1 c,found.2)
    else some (fun _ => false,rest)
  | '[' :: ':' :: rest =>
    match _closed : strchr ':' rest with
    | some (name,']' :: rest) => (members false rest).map fun found => (fun c => classKind name c || found.1 c,found.2)
    | _ => (members false (':' :: rest)).map fun found => (fun c => c = '[' || found.1 c,found.2)
  | text =>
    match _low : element text with
    | none => none
    | some (low,'-' :: rest) =>
      if rest.head? = some ']' then (members false ('-' :: rest)).map fun found =>
        (fun c => c = low || found.1 c,found.2)
      else match _high : element rest with
        | none => none
        | some (high,rest) =>
          (members false rest).map fun found => (fun c => (low ≤ c && c ≤ high) || found.1 c,found.2)
    | some (low,rest) => (members false rest).map fun found => (fun c => c = low || found.1 c,found.2)
termination_by text.length
decreasing_by
  · simp
  · have := strchr_length _closed
    simp only [List.length_cons] at this ⊢
    omega
  · simp
  · obtain ⟨before,nonempty,split⟩ := element_suffix _low
    have := List.length_pos_iff.mpr nonempty
    rw [split]
    simp
    omega
  · obtain ⟨before,_,split⟩ := element_suffix _low
    obtain ⟨before',nonempty',split'⟩ := element_suffix _high
    have := List.length_pos_iff.mpr nonempty'
    rw [split,split']
    simp
    omega
  · obtain ⟨before,nonempty,split⟩ := element_suffix _low
    have := List.length_pos_iff.mpr nonempty
    rw [split]
    simp
    omega

/-- A bracket expression behind its opening bracket. -/
def bracket : Str → Option ((Char → Bool) × Str)
  | '!' :: text => (members true text).map fun found => (fun c => !found.1 c,found.2)
  | '^' :: text => (members true text).map fun found => (fun c => !found.1 c,found.2)
  | text => members true text

/-- A text ends behind a closing bracket. -/
def Closes (text rest : Str) : Prop := ∃ used, text = used ++ ']' :: rest

theorem closes_behind {text text' rest : Str} (before : Str) (split : text = before ++ text')
    (closes : Closes text' rest) :
    Closes text rest := by
  obtain ⟨used,rfl⟩ := closes
  exact ⟨before ++ used,by simp [split]⟩

theorem map_rest {read : Option ((Char → Bool) × Str)} {f : (Char → Bool) × Str → (Char → Bool) × Str}
    {kind : Char → Bool} {rest : Str} (mapped : read.map f = some (kind,rest))
    (kept : ∀ found, (f found).2 = found.2) :
    ∃ kind', read = some (kind',rest) := by
  obtain ⟨found,here,pair⟩ := Option.map_eq_some_iff.mp mapped
  refine ⟨found.1,here.trans (congrArg some (Prod.ext rfl ?_))⟩
  rw [← kept found,pair]

/-- What follows a bracket expression follows a closing bracket. -/
theorem members_closes {first : Bool} {text rest : Str} {kind : Char → Bool}
    (read : members first text = some (kind,rest)) :
    Closes text rest := by
  fun_induction members first text generalizing kind rest with
  | case1 text ih =>
    obtain ⟨_,found⟩ := map_rest read fun _ => rfl
    exact closes_behind [']'] rfl (ih found)
  | case2 first text _ =>
    cases read
    exact ⟨[],rfl⟩
  | case3 first text name text' closed ih =>
    obtain ⟨split,_⟩ := strchr_some.mp closed
    obtain ⟨_,found⟩ := map_rest read fun _ => rfl
    exact closes_behind ('[' :: ':' :: name ++ [':',']']) (by simp [split]) (ih found)
  | case4 first text _ ih =>
    obtain ⟨_,found⟩ := map_rest read fun _ => rfl
    exact closes_behind ['['] rfl (ih found)
  | case5 => cases read
  | case6 first text _ _ low text' element _ ih =>
    obtain ⟨before,_,split⟩ := element_suffix element
    obtain ⟨_,found⟩ := map_rest read fun _ => rfl
    exact closes_behind before split (ih found)
  | case7 => cases read
  | case8 first text _ _ low text' element _ high text'' element' ih =>
    obtain ⟨before,_,split⟩ := element_suffix element
    obtain ⟨before',_,split'⟩ := element_suffix element'
    obtain ⟨_,found⟩ := map_rest read fun _ => rfl
    exact closes_behind (before ++ '-' :: before') (by simp [split,split']) (ih found)
  | case9 first text _ _ low text' _ element ih =>
    obtain ⟨before,_,split⟩ := element_suffix element
    obtain ⟨_,found⟩ := map_rest read fun _ => rfl
    exact closes_behind before split (ih found)

theorem bracket_closes {text rest : Str} {kind : Char → Bool} (read : bracket text = some (kind,rest)) :
    Closes text rest := by
  unfold bracket at read
  split at read
  · obtain ⟨_,found⟩ := map_rest read fun _ => rfl
    exact closes_behind ['!'] rfl (members_closes found)
  · obtain ⟨_,found⟩ := map_rest read fun _ => rfl
    exact closes_behind ['^'] rfl (members_closes found)
  · exact members_closes read

theorem closes_length {text rest : Str} (closes : Closes text rest) : rest.length < text.length := by
  obtain ⟨used,rfl⟩ := closes
  simp
  omega

/-- The atoms of a pattern; a bracket that is not closed stands for itself. -/
def atoms : Str → List Atom
  | [] => []
  | '*' :: rest => .star :: atoms rest
  | '?' :: rest => .one (fun _ => true) :: atoms rest
  | '\\' :: c :: rest => .char c :: atoms rest
  | '[' :: rest =>
    match _closed : bracket rest with
    | some (kind,rest) => .one kind :: atoms rest
    | none => .char '[' :: atoms rest
  | c :: rest => .char c :: atoms rest
termination_by pattern => pattern.length
decreasing_by
  all_goals
    simp only [List.length_cons]
    try have := closes_length (bracket_closes _closed)
    omega

/-! ## Matching -/

/-- Whether atoms accept a text. -/
def accepts : List Atom → Str → Bool
  | [],text => text.isEmpty
  | .star :: as,text => text.tails.any (accepts as)
  | .one kind :: as,c :: text => kind c && accepts as text
  | .one _ :: _,[] => false

/-- `fnmatch(pattern, string, 0) == 0`. -/
def fnmatch (pattern string : Str) : Bool := accepts (atoms pattern) string

/-- Atoms one behind the other accept texts one behind the other. -/
theorem accepts_append {as bs : List Atom} {text : Str} :
    accepts (as ++ bs) text = true ↔ ∃ front back, text = front ++ back ∧ accepts as front = true ∧
      accepts bs back = true := by
  induction as generalizing text with
  | nil => simp [accepts]
  | cons a as ih =>
    cases a with
    | star =>
      simp only [List.cons_append,accepts,List.any_eq_true,List.mem_tails,ih]
      constructor
      · rintro ⟨_,⟨skipped,rfl⟩,front,back,rfl,first,second⟩
        exact ⟨skipped ++ front,back,by simp,⟨front,List.suffix_append _ _,first⟩,second⟩
      · rintro ⟨_,back,rfl,⟨front,⟨skipped,rfl⟩,first⟩,second⟩
        exact ⟨front ++ back,⟨skipped,by simp⟩,front,back,rfl,first,second⟩
    | one kind =>
      cases text with
      | nil =>
        simp only [List.cons_append,accepts,Bool.false_eq_true,false_iff,not_exists]
        rintro front back ⟨split,first,_⟩
        obtain ⟨rfl,_⟩ := List.append_eq_nil_iff.mp split.symm
        cases first
      | cons c text =>
        simp only [List.cons_append,accepts,Bool.and_eq_true,ih]
        constructor
        · rintro ⟨here,front,back,rfl,first,second⟩
          exact ⟨c :: front,back,rfl,by simp [accepts,here,first],second⟩
        · rintro ⟨front,back,split,first,second⟩
          cases front with
          | nil => cases first
          | cons d front =>
            obtain ⟨rfl,rfl⟩ := List.cons.inj split
            simp only [accepts,Bool.and_eq_true] at first
            exact ⟨first.1,front,back,rfl,first.2,second⟩

theorem accepts_star (text : Str) : accepts [.star] text = true := by
  simp only [accepts,List.any_eq_true,List.mem_tails,List.isEmpty_iff]
  exact ⟨[],List.nil_suffix,rfl⟩

/-- Plain characters accept themselves only. -/
theorem accepts_chars {chars text : Str} : accepts (chars.map .char) text = true ↔ text = chars := by
  induction chars generalizing text with
  | nil => simp [accepts]
  | cons c chars ih => cases text <;> simp [accepts,Atom.char,ih]

/-! ## Plain text -/

/-- The characters that stand for others. -/
def special (c : Char) : Bool := c = '*' || c = '?' || c = '[' || c = '\\'

theorem atoms_plain {c : Char} (plain : special c = false) (rest : Str) :
    atoms (c :: rest) = .char c :: atoms rest := by
  simp only [special,Bool.or_eq_false_iff,decide_eq_false_iff_not] at plain
  obtain ⟨⟨⟨star,mark⟩,bracket⟩,escape⟩ := plain
  rw [atoms]
  all_goals simp_all

/-- The atoms of the characters that are read without what follows them. -/
theorem atoms_single (rest : Str) : atoms [] = [] ∧ atoms ('*' :: rest) = .star :: atoms rest ∧
    atoms ('?' :: rest) = .one (fun _ => true) :: atoms rest ∧ ∀ c,
      atoms ('\\' :: c :: rest) = .char c :: atoms rest := by
  refine ⟨?_,?_,?_,fun c => ?_⟩ <;> rw [atoms]

theorem atoms_escape (c : Char) (rest : Str) :
    atoms ('\\' :: c :: rest) = .char c :: atoms rest := (atoms_single rest).2.2.2 c

theorem atoms_star (rest : Str) : atoms ('*' :: rest) = .star :: atoms rest := (atoms_single rest).2.1

theorem atoms_any (rest : Str) : atoms ('?' :: rest) = .one (fun _ => true) :: atoms rest := (atoms_single rest).2.2.1

/-- A plain text and a star at the end of a pattern. -/
theorem atoms_tail {tail : Str} (plain : ∀ c ∈ tail, special c = false) :
    atoms (tail ++ ['*']) = tail.map .char ++ [.star] := by
  induction tail with
  | nil =>
    rw [List.nil_append,atoms_star,(atoms_single []).1]
    rfl
  | cons c tail ih =>
    rw [List.cons_append,atoms_plain (plain c (by simp)),ih fun c member => plain c (by simp [member])]
    rfl

/-- The atoms of a text without a closing bracket do not depend on what is ahead of
    it, if it starts with a plain character. -/
theorem atoms_behind {c : Char} {tail : Str} (plain : special c = false) (unclosed : ']' ∉ c :: tail) (front : Str) :
    ∃ as, atoms (front ++ c :: tail) = as ++ atoms (c :: tail) := by
  induction size : front.length using Nat.strongRecOn generalizing front with
  | _ n ih =>
    have later : ∀ (a : Atom) (front' : Str), front'.length < n →
        ∃ as, a :: atoms (front' ++ c :: tail) = as ++ atoms (c :: tail) := by
      intro a front' shorter
      obtain ⟨as,eq⟩ := ih front'.length shorter front' rfl
      exact ⟨a :: as,by rw [eq,List.cons_append]⟩
    cases front with
    | nil => exact ⟨[],rfl⟩
    | cons d front =>
      rw [List.length_cons] at size
      rw [List.cons_append]
      by_cases ordinary : special d = false
      · rw [atoms_plain ordinary]
        exact later _ front (by omega)
      simp only [special,Bool.not_eq_false,Bool.or_eq_true,decide_eq_true_eq] at ordinary
      rcases ordinary with ((rfl | rfl) | rfl) | rfl
      · rw [atoms_star]
        exact later _ front (by omega)
      · rw [atoms_any]
        exact later _ front (by omega)
      · rw [atoms]
        split
        · next kind rest read =>
          obtain ⟨used,split⟩ := bracket_closes read
          -- The bracket that closes the expression is in front of the tail.
          have inside : ∃ front', front'.length < n ∧ rest = front' ++ c :: tail := by
            rcases List.append_eq_append_iff.mp split with ⟨more,_,behind⟩ | ⟨more,ahead,behind⟩
            · exact absurd (by rw [behind]; simp) unclosed
            · cases more with
              | nil =>
                rw [List.nil_append] at behind
                exact absurd (by rw [← behind]; simp) unclosed
              | cons e more =>
                obtain ⟨rfl,rfl⟩ := List.cons.inj behind
                have := congrArg List.length ahead
                rw [List.length_append,List.length_cons] at this
                exact ⟨more,by omega,rfl⟩
          obtain ⟨front',shorter,rfl⟩ := inside
          exact later _ front' shorter
        · exact later _ front (by omega)
      · cases front with
        | nil =>
          rw [List.nil_append,atoms_escape,atoms_plain plain]
          exact ⟨[],rfl⟩
        | cons e front =>
          rw [List.cons_append,atoms_escape]
          rw [List.length_cons] at size
          exact later _ front (by omega)

/-- A pattern that ends with a plain text and a star accepts the texts in which that
    text is found behind what the rest of the pattern accepts. -/
theorem fnmatch_tail {c : Char} {tail : Str} (plain : ∀ d ∈ c :: tail, special d = false) (unclosed : ']' ∉ c :: tail)
    (front : Str) : ∃ as, ∀ text, fnmatch (front ++ (c :: tail ++ ['*'])) text = true ↔
      ∃ before behind, text = before ++ (c :: tail ++ behind) ∧ accepts as before = true := by
  obtain ⟨as,eq⟩ := @atoms_behind c (tail ++ ['*']) (plain c (by simp)) (by simpa using unclosed) front
  refine ⟨as,?_⟩
  intro text
  have shape : atoms (c :: (tail ++ ['*'])) = (c :: tail).map .char ++ [.star] := atoms_tail plain
  rw [fnmatch,List.cons_append,eq,shape,accepts_append]
  constructor
  · rintro ⟨before,back,rfl,first,second⟩
    obtain ⟨mid,behind,rfl,chars,_⟩ := accepts_append.mp second
    rw [accepts_chars.mp chars]
    exact ⟨before,behind,by simp,first⟩
  · rintro ⟨before,behind,rfl,first⟩
    exact ⟨before,_,rfl,first,accepts_append.mpr ⟨c :: tail,behind,by simp,accepts_chars.mpr rfl,accepts_star behind⟩⟩

/-- A pattern without brackets and escapes accepts itself. -/
theorem fnmatch_self {pattern : Str} (bracket : '[' ∉ pattern) (escape : '\\' ∉ pattern) :
    fnmatch pattern pattern = true := by
  unfold fnmatch
  induction pattern with
  | nil =>
    rw [atoms]
    rfl
  | cons c pattern ih =>
    simp only [List.mem_cons,not_or] at bracket escape
    have rest := ih bracket.2 escape.2
    by_cases plain : special c = false
    · rw [atoms_plain plain]
      simpa [accepts,Atom.char] using rest
    simp only [special,Bool.not_eq_false,Bool.or_eq_true,decide_eq_true_eq] at plain
    rcases plain with ((rfl | rfl) | rfl) | rfl
    · rw [atoms_star,accepts,List.any_eq_true]
      exact ⟨pattern,(List.mem_tails _ _).mpr (List.suffix_cons _ _),rest⟩
    · rw [atoms_any]
      simpa [accepts] using rest
    · exact absurd rfl bracket.1
    · exact absurd rfl escape.1

end Robsd.Pattern
