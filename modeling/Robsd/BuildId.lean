import Mathlib.Algebra.Order.Ring.Rat
import Mathlib.Data.Prod.Lex
import Robsd.Invocations

/-!
The name of a new invocation (`build_id` in util.sh): the directories of the
day are sorted in descending order and the number of the first one is counted up.
-/
namespace Robsd.BuildId
open Robsd.Strings
open Robsd.Decimal (decimal decimal_injective digits_isdigit)
open Robsd.Digits
open Robsd.Sorting (Qsort)
open Robsd.Invocations

/-! ## The pipeline -/

/-- `find . -type d -name "${_d}*"` on the paths of all directories below, by
    their components. -/
def find (date : Date) (directories : List (List Str)) : List Str :=
  (directories.filter fun path => path.getLast?.any fun name => date.text.isPrefixOf name).map
    fun path => '.' :: path.flatMap ('/' :: ·)

/-- The number at the start of a line, as `sort -n` takes it: blanks, a minus
    sign, digits and the digits after a point, all of them optional. -/
def numericKey (line : Str) : ℚ :=
  let text := line.dropWhile fun c => c = ' ' || c = '\t'
  let magnitude := fun text : Str =>
    let whole := text.takeWhile isdigit
    let fraction := match text.dropWhile isdigit with
      | '.' :: behind => behind.takeWhile isdigit
      | _ => []
    (Nat.ofDigitChars 10 (whole ++ fraction) 0 : ℚ)/10^fraction.length
  match text with
  | '-' :: text => -magnitude text
  | text => magnitude text

/-- The order of `sort -nr`: descending by number and, among lines with the same
    number, descending by bytes. -/
def sortKey (line : Str) : (ℚ ×ₗ Str)ᵒᵈ := OrderDual.toDual (toLex (numericKey line,line))

/-- `cut -d '.' -f 3`, which prints a line without any delimiter as it is. -/
def cut (line : Str) : Str := if '.' ∈ line then (line.splitOn '.')[2]?.getD [] else line

/-- `$((_c + 1))` in 64 bits, for digits; without any they count as zero. -/
def increment (digits : Str) : Int64 := Int64.ofInt (Nat.ofDigitChars 10 digits 0)+1

/-- `build_id` on the given date, with the given directories below the robsd directory. -/
def buildId (sort : Qsort sortKey) (date : Date) (directories : List (List Str)) : Str :=
  let c := ((sort.sort (find date directories)).head?.map cut).getD []
  date.text ++ '.' :: decimal (increment c).toInt

/-! ## The first line -/

/-- The line for an invocation. -/
def line (i : Invocation) : Str := '.' :: '/' :: i.name

@[simp] theorem numericKey_line (i : Invocation) : numericKey (line i) = 0 := by
  simp [numericKey,line,isdigit,Nat.ofDigitChars]

theorem sortKey_le_iff {i j : Invocation} : sortKey (line i) ≤ sortKey (line j) ↔ j.name ≤ i.name := by
  rw [sortKey,sortKey,OrderDual.toDual_le_toDual,Prod.Lex.toLex_le_toLex,numericKey_line,numericKey_line]
  simp [line,← not_lt]

theorem date_text_absent (d : Date) : '.' ∉ d.text := by
  have digit : ∀ n : Fin 10, Nat.digitChar n ≠ '.' := by decide
  have absent : ∀ width n, '.' ∉ pad width n := by
    intro width
    induction width with
    | zero => simp [pad]
    | succ width ih =>
      intro n
      have last := digit ⟨n%10,Nat.mod_lt _ (by decide)⟩
      simp [pad,ih,last.symm]
  simp [Date.text,absent]

theorem number_absent (n : Nat) : '.' ∉ Nat.toDigits 10 n := by
  intro member
  have digit := digits_isdigit member
  revert digit
  decide

/-- Behind the second point of a line stands the number. -/
theorem cut_line (i : Invocation) : cut (line i) = Nat.toDigits 10 i.number := by
  have date : '.' ∉ '/' :: i.date.text := by simp [date_text_absent]
  have split : (line i).splitOn '.' = [[],'/' :: i.date.text,Nat.toDigits 10 i.number] := by
    have shape : line i = [] ++ '.' :: (('/' :: i.date.text) ++ '.' :: Nat.toDigits 10 i.number) := rfl
    rw [shape,List.splitOn_append_cons_self_of_not_mem (by simp),List.splitOn_append_cons_self_of_not_mem date,
      List.splitOn_eq_singleton (number_absent i.number)]
  rw [cut,if_pos (by simp [line]),split]
  rfl

/-- The number printed after the given one. -/
def successor (n : Nat) : Int := (Int64.ofInt n+1).toInt

theorem increment_toDigits (n : Nat) : (increment (Nat.toDigits 10 n)).toInt = successor n := by
  rw [increment,successor,Nat.ofDigitChars_toDigits (by decide) (by decide)]

theorem successor_eq_iff {n m : Nat} (le : n ≤ m) : successor n = m+1 ↔ n = m ∧ m+1 < 2^63 := by
  have wraps : successor n = (n+1 : Int).bmod (2^64) := by
    rw [successor,Int64.toInt_add,Int64.toInt_ofInt]
    simp
  rw [wraps,Int.bmod_def]
  omega

/-! ## The number -/

/-- The invocations of a day. -/
def today (date : Date) (invs : List Invocation) : List Invocation := invs.filter fun i => i.date = date

/-- The largest number of the day, zero without any invocation. -/
def largest (date : Date) (invs : List Invocation) : Nat := ((today date invs).map Invocation.number).foldr max 0

theorem le_largest {date : Date} {invs : List Invocation} {i : Invocation} (member : i ∈ today date invs) :
    i.number ≤ largest date invs := by
  unfold largest
  generalize today date invs = days at member
  induction days with
  | nil => cases member
  | cons j days ih =>
    rw [List.map_cons,List.foldr_cons]
    rcases List.mem_cons.mp member with rfl | later
    · exact Nat.le_max_left _ _
    · exact Nat.le_trans (ih later) (Nat.le_max_right _ _)

theorem largest_attained {date : Date} {invs : List Invocation} (some : today date invs ≠ []) :
    ∃ i ∈ today date invs, i.number = largest date invs := by
  unfold largest
  generalize today date invs = days at some
  induction days with
  | nil => exact absurd rfl some
  | cons j days ih =>
    rw [List.map_cons,List.foldr_cons]
    by_cases high : (days.map Invocation.number).foldr max 0 ≤ j.number
    · exact ⟨j,by simp,(Nat.max_eq_left high).symm⟩
    · have others : days ≠ [] := by
        rintro rfl
        simp at high
      obtain ⟨i,member,same⟩ := ih others
      exact ⟨i,List.mem_cons_of_mem j member,by rw [same,Nat.max_eq_right (by omega)]⟩

/-- The directories are those of the invocations, next to others with names that
    do not start with the date. -/
def Holds (date : Date) (directories : List (List Str)) (invs : List Invocation) : Prop :=
  ∃ others, directories.Perm (invs.map (fun i => [i.name]) ++ others) ∧
    ∀ path ∈ others, ∀ name ∈ path.getLast?, ¬ date.text <+: name

/-- No number of the day goes behind the largest one. -/
def InOrder (date : Date) (invs : List Invocation) : Prop :=
  ∀ i ∈ today date invs, i.number = largest date invs ∨ Leads i.number (largest date invs)

instance (date : Date) (invs : List Invocation) : Decidable (InOrder date invs) :=
  inferInstanceAs (Decidable (∀ i ∈ today date invs, _ ∨ _))

theorem date_prefix_iff {date : Date} {i : Invocation} : date.text <+: i.name ↔ i.date = date := by
  constructor
  · intro starts
    have own : i.date.text <+: i.name := ⟨_,rfl⟩
    exact Date.text_injective ((List.prefix_of_prefix_length_le own starts (by simp)).eq_of_length (by simp))
  · rintro rfl
    exact ⟨_,rfl⟩

theorem find_perm {date : Date} {directories : List (List Str)} {invs : List Invocation}
    (here : Holds date directories invs) :
    (find date directories).Perm ((today date invs).map line) := by
  obtain ⟨others,perm,different⟩ := here
  have nothing : others.filter (fun path => path.getLast?.any fun name => date.text.isPrefixOf name) = [] := by
    rw [List.filter_eq_nil_iff]
    intro path member found
    rw [Option.any_eq_true] at found
    obtain ⟨name,last,starts⟩ := found
    exact different path member name last (List.isPrefixOf_iff_prefix.mp starts)
  have found : (invs.map fun i : Invocation => [i.name]).filter
    (fun path => path.getLast?.any fun name => date.text.isPrefixOf name) =
      (today date invs).map fun i => [i.name] := by
    rw [List.filter_map,today]
    congr 1
    apply List.filter_congr
    intro i _
    rw [Bool.eq_iff_iff]
    simp [List.isPrefixOf_iff_prefix,date_prefix_iff]
  have lines := (perm.filter fun path => path.getLast?.any fun name => date.text.isPrefixOf name).map
    fun path => '.' :: path.flatMap ('/' :: ·)
  rw [List.filter_append,nothing,List.append_nil,found,List.map_map] at lines
  refine lines.trans (List.Perm.of_eq ?_)
  simp [line]

/-- What is counted up: the number of the invocation with the greatest name. -/
theorem buildId_eq (sort : Qsort sortKey) {date : Date} {directories : List (List Str)} {invs : List Invocation}
    (here : Holds date directories invs) :
    (today date invs = [] ∧ buildId sort date directories = date.text ++ '.' :: decimal (successor 0)) ∨
    ∃ i ∈ today date invs, (∀ j ∈ today date invs, j.name ≤ i.name) ∧
      buildId sort date directories = date.text ++ '.' :: decimal (successor i.number) := by
  have perm := find_perm here
  obtain ⟨order,same,sorted⟩ := Sorting.perm_map ((sort.perm _).trans perm)
  have descending := sort.sorted (find date directories)
  rw [sorted,List.pairwise_map] at descending
  cases order with
  | nil =>
    have none := List.nil_perm.mp same
    refine .inl ⟨none,?_⟩
    simp only [buildId,sorted]
    rfl
  | cons i order =>
    refine .inr ⟨i,same.mem_iff.mp (by simp),?_,?_⟩
    · intro j member
      rcases List.mem_cons.mp (same.mem_iff.mpr member) with rfl | later
      · exact le_refl _
      · exact sortKey_le_iff.mp (List.rel_of_pairwise_cons descending later)
    · simp only [buildId,sorted,List.map_cons,List.head?_cons,Option.map_some,Option.getD_some,
        cut_line,increment_toDigits]

/-- The greatest name has the largest number exactly when no number goes behind it. -/
theorem greatest_iff {date : Date} {invs : List Invocation} {i : Invocation} (member : i ∈ today date invs)
    (greatest : ∀ j ∈ today date invs, j.name ≤ i.name) : i.number = largest date invs ↔ InOrder date invs := by
  have dates : ∀ j ∈ today date invs, j.date = date := fun j here => by simpa using (List.mem_filter.mp here).2
  have compare : ∀ j ∈ today date invs, ∀ k ∈ today date invs, j.name < k.name ↔
      Nat.toDigits 10 j.number < Nat.toDigits 10 k.number := by
    intro j here k there
    rw [Invocation.name_lt_iff,dates j here,dates k there]
    simp [Date.Before]
  constructor
  · intro top j here
    rcases Nat.eq_or_lt_of_le (le_largest here) with same | less
    · exact .inl same
    · right
      rw [← toDigits_lt_iff less,← top,← compare j here i member]
      apply lt_of_le_of_ne (greatest j here)
      intro same
      rw [Invocation.name_injective same] at less
      omega
  · intro order
    obtain ⟨k,here,top⟩ := largest_attained (List.ne_nil_of_mem member)
    rcases order i member with same | leads
    · exact same
    · rcases Nat.eq_or_lt_of_le (le_largest member) with same | less
      · exact same
      · rw [← toDigits_lt_iff less,← top,← compare i member k here] at leads
        exact absurd leads (not_lt.mpr (greatest k here))

/-- The next invocation of the day is printed, and does not exist yet, exactly when
    no number of the day goes behind the largest one and that can be counted up. -/
theorem buildId_iff (sort : Qsort sortKey) {date : Date} {directories : List (List Str)} {invs : List Invocation}
    (here : Holds date directories invs) :
    (buildId sort date directories = date.text ++ '.' :: decimal (largest date invs+1) ∧
      [buildId sort date directories] ∉ directories) ↔ InOrder date invs ∧ largest date invs+1 < 2^63 := by
  have fresh : [date.text ++ '.' :: decimal (largest date invs+1)] ∉ directories := by
    intro member
    obtain ⟨others,perm,different⟩ := here
    rcases List.mem_append.mp (perm.mem_iff.mp member) with exists_ | other
    · obtain ⟨i,there,same⟩ := List.mem_map.mp exists_
      have name : i.name = (⟨date,largest date invs+1,by omega⟩ : Invocation).name := List.head_eq_of_cons_eq same
      have equal := Invocation.name_injective name
      subst equal
      have small := le_largest (List.mem_filter.mpr ⟨there,decide_eq_true rfl⟩)
      exact absurd small (Nat.not_succ_le_self _)
    · exact different _ other _ rfl (List.prefix_append _ _)
  have printed : ∀ n : Nat, n ≤ largest date invs → (date.text ++ '.' :: decimal (successor n) =
      date.text ++ '.' :: decimal (largest date invs+1) ↔ n = largest date invs ∧ largest date invs+1 < 2^63) := by
    intro n le
    rw [← successor_eq_iff le]
    constructor
    · intro same
      exact decimal_injective (List.cons.inj (List.append_cancel_left same)).2
    · intro same
      rw [same]
  have alone : (buildId sort date directories = date.text ++ '.' :: decimal (largest date invs+1) ∧
      [buildId sort date directories] ∉ directories) ↔
        buildId sort date directories = date.text ++ '.' :: decimal (largest date invs+1) :=
    ⟨fun both => both.1,fun same => ⟨same,by rw [same]; exact fresh⟩⟩
  rw [alone]
  rcases buildId_eq sort here with ⟨none,id⟩ | ⟨i,member,greatest,id⟩
  · have zero : largest date invs = 0 := by simp [largest,none]
    rw [id,printed 0 (Nat.zero_le _)]
    simp [InOrder,none,zero]
  · rw [id,printed i.number (le_largest member),greatest_iff member greatest]

/-- Two invocations of the day and one of an earlier day. -/
theorem buildId_iff_sample :
    Holds autumn [["attic".toList],["2024-10-23.2".toList],["2024-10-23.2".toList,"tmp".toList],["2024-10-23.1".toList],
      ["2024-09-30.7".toList]] someInvocations ∧
    buildId (Sorting.insertion sortKey) autumn [["attic".toList],["2024-10-23.2".toList],
      ["2024-10-23.2".toList,"tmp".toList],
      ["2024-10-23.1".toList],["2024-09-30.7".toList]] = "2024-10-23.3".toList := by
  have here : Holds autumn [["attic".toList],["2024-10-23.2".toList],["2024-10-23.2".toList,"tmp".toList],
    ["2024-10-23.1".toList],
      ["2024-09-30.7".toList]] someInvocations := by
    refine ⟨[["attic".toList],["2024-10-23.2".toList,"tmp".toList]],?_,?_⟩ <;> decide
  exact ⟨here,((buildId_iff (Sorting.insertion sortKey) here).mpr (by decide)).1⟩

/-- The tenth invocation is named a second time. -/
theorem tenth_again :
    Holds autumn [[nine.name],[ten.name]] [nine,ten] ∧
      buildId (Sorting.insertion sortKey) autumn [[nine.name],[ten.name]] = ten.name ∧
    ¬ (buildId (Sorting.insertion sortKey) autumn [[nine.name],[ten.name]] =
        autumn.text ++ '.' :: decimal (largest autumn [nine,ten]+1) ∧
      [buildId (Sorting.insertion sortKey) autumn [[nine.name],[ten.name]]] ∉ [[nine.name],[ten.name]]) := by
  have again : buildId (Sorting.insertion sortKey) autumn [[nine.name],[ten.name]] = ten.name := by decide +kernel
  refine ⟨⟨[],List.Perm.refl _,by simp⟩,again,fun both => both.2 ?_⟩
  rw [again]
  simp

end Robsd.BuildId
