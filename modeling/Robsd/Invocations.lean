import Mathlib.Data.List.Induction
import Robsd.Decimal
import Robsd.Digits
import Robsd.Sorting

/-!
The invocations below the robsd directory (invocation.c): directories named
after a date and a number, which are walked in the order of their paths.
-/
namespace Robsd.Invocations
open Robsd.Strings
open Robsd.Digits
open Robsd.Sorting (Qsort)

/-! ## Names -/

/-- A date as `date '+%Y-%m-%d'` prints it. -/
structure Date where
  year : Nat
  month : Nat
  day : Nat
  yearFits : year < 10000
  monthFits : month < 100
  dayFits : day < 100
  deriving DecidableEq

def Date.text (d : Date) : Str := pad 4 d.year ++ '-' :: (pad 2 d.month ++ '-' :: pad 2 d.day)

/-- Dates in the order of the calendar. -/
def Date.Before (d d' : Date) : Prop :=
  d.year < d'.year ∨ d.year = d'.year ∧ (d.month < d'.month ∨ d.month = d'.month ∧ d.day < d'.day)

instance (d d' : Date) : Decidable (d.Before d') := inferInstanceAs (Decidable (_ ∨ _))

/-- An invocation, by its date and its number on that date. -/
structure Invocation where
  date : Date
  number : Nat
  positive : 0 < number
  deriving DecidableEq

def Invocation.name (i : Invocation) : Str := i.date.text ++ '.' :: Nat.toDigits 10 i.number

/-- Invocations in the order in which they are created. -/
def Invocation.Before (i j : Invocation) : Prop := i.date.Before j.date ∨ i.date = j.date ∧ i.number < j.number

@[simp] theorem Date.text_length (d : Date) : d.text.length = 10 := by simp [Date.text]

theorem Date.ext_iff' {d d' : Date} : d = d' ↔ d.year = d'.year ∧ d.month = d'.month ∧ d.day = d'.day := by
  cases d
  cases d'
  simp

theorem Date.text_lt_iff {d d' : Date} : d.text < d'.text ↔ d.Before d' := by
  have year : pad 4 d.year = pad 4 d'.year ↔ d.year = d'.year :=
    ⟨pad_injective d.yearFits d'.yearFits,fun same => by rw [same]⟩
  have month : pad 2 d.month = pad 2 d'.month ↔ d.month = d'.month :=
    ⟨pad_injective d.monthFits d'.monthFits,fun same => by rw [same]⟩
  simp only [Date.text,Date.Before]
  rw [append_lt_append_iff (by simp),pad_lt_iff d.yearFits d'.yearFits,year,List.cons_lt_cons_iff]
  simp only [lt_irrefl,false_or,true_and]
  rw [append_lt_append_iff (by simp),pad_lt_iff d.monthFits d'.monthFits,month,List.cons_lt_cons_iff]
  simp only [lt_irrefl,false_or,true_and]
  rw [pad_lt_iff d.dayFits d'.dayFits]

theorem Date.text_injective {d d' : Date} (same : d.text = d'.text) : d = d' := by
  have first : ¬ d.Before d' := fun before => absurd (Date.text_lt_iff.mpr before) (by rw [same]; exact lt_irrefl _)
  have second : ¬ d'.Before d := fun before => absurd (Date.text_lt_iff.mpr before) (by rw [same]; exact lt_irrefl _)
  rw [Date.ext_iff']
  unfold Date.Before at first second
  omega

/-- Names are ordered by date, and within a date by the digits of the number. -/
theorem Invocation.name_lt_iff {i j : Invocation} : i.name < j.name ↔
    i.date.Before j.date ∨ i.date = j.date ∧ Nat.toDigits 10 i.number < Nat.toDigits 10 j.number := by
  have same : i.date.text = j.date.text ↔ i.date = j.date := ⟨Date.text_injective,fun same => by rw [same]⟩
  simp only [Invocation.name]
  rw [append_lt_append_iff (by simp),Date.text_lt_iff,same,List.cons_lt_cons_iff]
  simp

theorem Invocation.name_injective {i j : Invocation} (same : i.name = j.name) : i = j := by
  obtain ⟨dates,numbers⟩ := List.append_inj same (by simp)
  have date := Date.text_injective dates
  have number := toDigits_injective (List.cons.inj numbers).2
  cases i
  cases j
  simp_all

theorem Invocation.before_asymm {i j : Invocation} (before : i.Before j) : ¬ j.Before i := by
  unfold Invocation.Before Date.Before at *
  rcases before with dates | ⟨date,numbers⟩
  · rintro (other | ⟨date,_⟩)
    · omega
    · rw [date] at dates
      omega
  · rintro (other | ⟨_,other⟩)
    · rw [date] at other
      omega
    · omega

/-- The numbers of one day sort like their digits. -/
def Aligned (invs : List Invocation) : Prop :=
  ∀ i ∈ invs, ∀ j ∈ invs, i.date = j.date → i.number < j.number → Leads i.number j.number

instance (invs : List Invocation) : Decidable (Aligned invs) :=
  inferInstanceAs (Decidable (∀ i ∈ invs, ∀ j ∈ invs, _ → _ → _))

/-- Then the names are in the order of creation. -/
theorem name_lt_of_before {invs : List Invocation} (aligned : Aligned invs) {i j : Invocation}
    (mem : i ∈ invs) (mem' : j ∈ invs) (before : i.Before j) :
    i.name < j.name := by
  rw [Invocation.name_lt_iff]
  rcases before with dates | ⟨date,numbers⟩
  · exact .inl dates
  · exact .inr ⟨date,(toDigits_lt_iff numbers).mpr (aligned i mem j mem' date numbers)⟩

theorem before_of_name_lt {invs : List Invocation} (aligned : Aligned invs) {i j : Invocation}
    (mem : i ∈ invs) (mem' : j ∈ invs) (less : i.name < j.name) :
    i.Before j := by
  rcases Invocation.name_lt_iff.mp less with dates | ⟨date,digits⟩
  · exact .inl dates
  · rcases Nat.lt_trichotomy i.number j.number with numbers | same | numbers
    · exact .inr ⟨date,numbers⟩
    · rw [same] at digits
      exact absurd digits (lt_irrefl _)
    · have other := name_lt_of_before aligned mem' mem (.inr ⟨date.symm,numbers⟩)
      exact absurd less (lt_asymm other)

/-! ## Walking -/

/-- An entry of a directory. -/
structure Dirent where
  name : Str
  isDir : Bool
  deriving DecidableEq

/-- `struct invocation_entry`. -/
structure InvocationEntry where
  path : Str
  basename : Str
  deriving DecidableEq

/-- The flags of `invocation_alloc`. -/
inductive SortFlag where
  | asc
  | desc
  | none

/-- The sizes of the buffers, and `qsort` with the two comparison functions. -/
structure Platform where
  pathMax : Nat
  nameMax : Nat
  asc : Qsort fun e : InvocationEntry => OrderDual.toDual e.path
  desc : Qsort fun e : InvocationEntry => e.path

/-- `snprintf` of a text into a buffer of the given size. -/
def snprintf (size : Nat) (text : Str) : Str := text.take (size-1)

/-- `match_directory`. -/
def matchDirectory (p : Platform) (robsddir keepdir : Str) (de : Dirent) : Bool :=
  de.isDir && snprintf p.pathMax (robsddir ++ '/' :: de.name) ≠ keepdir

/-- The loop of `invocation_read`. -/
def invocationRead (p : Platform) (directory : Str) (matches_ : Dirent → Bool) (entries : List Dirent) :
    List InvocationEntry :=
  (entries.filter fun de => de.name.head? ≠ some '.' && matches_ de).map fun de =>
    ⟨snprintf p.pathMax (directory ++ '/' :: de.name),snprintf (p.nameMax+1) de.name⟩

/-- `invocation_alloc` on what reading the directory returns, if it succeeds. -/
def invocationAlloc (p : Platform) (robsddir keepdir : Str) (listing : Option (List Dirent)) (flags : SortFlag) :
    Option (List InvocationEntry) :=
  listing.map fun entries =>
    let directories := invocationRead p robsddir (matchDirectory p robsddir keepdir) entries
    match flags with
    | .asc => p.asc.sort directories
    | .desc => p.desc.sort directories
    | .none => directories

/-- `invocation_walk`. -/
def invocationWalk (directories : List InvocationEntry) : Option (InvocationEntry × List InvocationEntry) :=
  directories.getLast?.map fun e => (e,directories.dropLast)

/-- What repeated calls of `invocation_walk` return before they return NULL. -/
def walkAll (directories : List InvocationEntry) : List InvocationEntry :=
  match _next : invocationWalk directories with
  | none => []
  | some (e,rest) => e :: walkAll rest
termination_by directories.length
decreasing_by
  obtain ⟨last,here,pair⟩ := Option.map_eq_some_iff.mp _next
  cases pair
  have := List.length_pos_of_mem (List.mem_of_getLast? here)
  rw [List.length_dropLast]
  omega

theorem walkAll_eq (directories : List InvocationEntry) : walkAll directories = directories.reverse := by
  induction directories using List.reverseRecOn with
  | nil =>
    rw [walkAll]
    rfl
  | append_singleton rest e ih =>
    rw [walkAll]
    split
    · next none => simp [invocationWalk] at none
    · next e' rest' some =>
      simp only [invocationWalk,List.getLast?_append,List.getLast?_singleton,Option.some_or,Option.map_some,
        List.dropLast_concat,Option.some.injEq,Prod.mk.injEq] at some
      obtain ⟨rfl,rfl⟩ := some
      rw [ih]
      simp

/-! ## The order of the walk -/

/-- The path of an invocation, and the entry for it. -/
def Invocation.path (robsddir : Str) (i : Invocation) : Str := robsddir ++ '/' :: i.name

def Invocation.entry (robsddir : Str) (i : Invocation) : InvocationEntry := ⟨i.path robsddir,i.name⟩

/-- The invocations that are not kept for good. -/
def walked (robsddir keepdir : Str) (invs : List Invocation) : List Invocation :=
  invs.filter fun i => i.path robsddir ≠ keepdir

/-- The directory contains the invocations, next to entries that are left out, and
    their paths are no longer than paths can be. -/
structure Listing (p : Platform) (robsddir keepdir : Str) (entries : List Dirent) (invs : List Invocation) : Prop where
  distinct : invs.Nodup
  entries : ∃ others, entries.Perm (invs.map (fun i => ⟨i.name,true⟩) ++ others) ∧
    ∀ e ∈ others, e.name.head? = some '.' ∨ matchDirectory p robsddir keepdir e = false
  short : ∀ i ∈ invs, (i.path robsddir).length < p.pathMax ∧ i.name.length ≤ p.nameMax

/-- The walk returns every invocation but the one kept for good once, each
    standing in the given relation to the later ones. -/
def Walks (p : Platform) (robsddir keepdir : Str) (entries : List Dirent) (invs : List Invocation) (flags : SortFlag)
    (relation : Invocation → Invocation → Prop) : Prop :=
  ∃ order : List Invocation, order.Perm (walked robsddir keepdir invs) ∧ order.Pairwise relation ∧
    (invocationAlloc p robsddir keepdir (some entries) flags).map walkAll = some (order.map (Invocation.entry robsddir))

theorem snprintf_short {size : Nat} {text : Str} (short : text.length < size) : snprintf size text = text :=
  List.take_of_length_le (by omega)

theorem name_visible (i : Invocation) : i.name.head? ≠ some '.' := by
  have digit : ∀ n : Fin 10, Nat.digitChar n ≠ '.' := by decide
  have first : i.name.head? = some (Nat.digitChar (i.date.year/10/10/10%10)) := by
    simp [Invocation.name,Date.text,pad]
  rw [first]
  intro dot
  exact digit ⟨i.date.year/10/10/10%10,Nat.mod_lt _ (by decide)⟩ (Option.some.inj dot)

theorem entry_injective {robsddir : Str} {i j : Invocation} (same : i.entry robsddir = j.entry robsddir) : i = j :=
  Invocation.name_injective (congrArg InvocationEntry.basename same)

theorem path_lt_iff {robsddir : Str} {i j : Invocation} : i.path robsddir < j.path robsddir ↔ i.name < j.name := by
  simp only [Invocation.path]
  rw [append_left_lt_iff,List.cons_lt_cons_iff]
  simp

section
variable {p : Platform} {robsddir keepdir : Str} {entries : List Dirent} {invs : List Invocation}
  (here : Listing p robsddir keepdir entries invs)
include here

theorem read_perm : (invocationRead p robsddir (matchDirectory p robsddir keepdir) entries).Perm
    ((walked robsddir keepdir invs).map (Invocation.entry robsddir)) := by
  obtain ⟨others,perm,hidden⟩ := here.entries
  have nothing : others.filter (fun de => de.name.head? ≠ some '.' && matchDirectory p robsddir keepdir de) = [] := by
    rw [List.filter_eq_nil_iff]
    intro e member
    rcases hidden e member with dot | other
    · simp [dot]
    · simp [other]
  have kept : (invs.map fun i : Invocation => (⟨i.name,true⟩ : Dirent)).filter
      (fun de => de.name.head? ≠ some '.' && matchDirectory p robsddir keepdir de) =
        (walked robsddir keepdir invs).map fun i => ⟨i.name,true⟩ := by
    rw [List.filter_map,walked]
    congr 1
    apply List.filter_congr
    intro i member
    have short := snprintf_short (here.short i member).1
    simp only [Invocation.path] at short
    by_cases kept : robsddir ++ '/' :: i.name = keepdir <;>
      simp_all [matchDirectory,name_visible i,Invocation.path]
  have filtered := (perm.filter fun de => de.name.head? ≠ some '.' && matchDirectory p robsddir keepdir de).map
    fun de => (⟨snprintf p.pathMax (robsddir ++ '/' :: de.name),snprintf (p.nameMax+1) de.name⟩ : InvocationEntry)
  rw [List.filter_append,nothing,List.append_nil,kept,List.map_map] at filtered
  have same : (walked robsddir keepdir invs).map ((fun de : Dirent => (⟨snprintf p.pathMax (robsddir ++ '/' :: de.name),
      snprintf (p.nameMax+1) de.name⟩ : InvocationEntry)) ∘ fun i => ⟨i.name,true⟩) =
        (walked robsddir keepdir invs).map (Invocation.entry robsddir) := by
    apply List.map_congr_left
    intro i member
    obtain ⟨path,name⟩ := here.short i (List.mem_of_mem_filter member)
    have whole := snprintf_short path
    simp only [Invocation.path] at whole
    simp [whole,snprintf_short (show i.name.length < p.nameMax+1 by omega),Invocation.entry,Invocation.path]
  rwa [same] at filtered

/-- The walk with the newest first goes down in the order of the names. -/
theorem walk_desc : Walks p robsddir keepdir entries invs .desc fun i j => j.name < i.name := by
  have perm := read_perm here
  have distinct : ((invocationRead p robsddir (matchDirectory p robsddir keepdir) entries).map fun e =>
    e.path).Nodup := by
    rw [(perm.map _).nodup_iff,List.map_map]
    apply (here.distinct.filter _).map_on
    intro i _ j _ same
    exact Invocation.name_injective (List.cons.inj (List.append_cancel_left same)).2
  obtain ⟨order,same,shape⟩ := Sorting.perm_map ((p.desc.perm _).trans perm)
  have strict := Sorting.sort_strict p.desc distinct
  rw [shape,List.pairwise_map] at strict
  refine ⟨order.reverse,order.reverse_perm.trans same,?_,?_⟩
  · rw [List.pairwise_reverse]
    exact strict.imp path_lt_iff.mp
  · simp only [invocationAlloc,Option.map_some,shape,walkAll_eq,List.map_reverse]

/-- The walk with the oldest first goes up. -/
theorem walk_asc : Walks p robsddir keepdir entries invs .asc fun i j => i.name < j.name := by
  have perm := read_perm here
  have distinct : ((invocationRead p robsddir (matchDirectory p robsddir keepdir) entries).map fun e =>
    OrderDual.toDual e.path).Nodup := by
    rw [(perm.map _).nodup_iff,List.map_map]
    apply (here.distinct.filter _).map_on
    intro i _ j _ same
    exact Invocation.name_injective (List.cons.inj (List.append_cancel_left (OrderDual.toDual_inj.mp same))).2
  obtain ⟨order,same,shape⟩ := Sorting.perm_map ((p.asc.perm _).trans perm)
  have strict := Sorting.sort_strict p.asc distinct
  rw [shape,List.pairwise_map] at strict
  refine ⟨order.reverse,order.reverse_perm.trans same,?_,?_⟩
  · rw [List.pairwise_reverse]
    exact strict.imp fun less => path_lt_iff.mp (OrderDual.toDual_lt_toDual.mp less)
  · simp only [invocationAlloc,Option.map_some,shape,walkAll_eq,List.map_reverse]

end

/-- Going up by names is going up by creation exactly when the numbers are aligned. -/
theorem ascending_iff {order invs : List Invocation} (same : order.Perm invs)
    (names : order.Pairwise fun i j => i.name < j.name) :
    (order.Pairwise fun i j => i.Before j) ↔ Aligned invs := by
  constructor
  · intro creation i mem j mem' date numbers
    obtain ⟨m,hm,rfl⟩ := List.getElem_of_mem (same.mem_iff.mpr mem)
    obtain ⟨n,hn,rfl⟩ := List.getElem_of_mem (same.mem_iff.mpr mem')
    rcases Nat.lt_trichotomy m n with first | rfl | last
    · rcases Invocation.name_lt_iff.mp (List.pairwise_iff_getElem.mp names m n hm hn first) with dates | ⟨_,digits⟩
      · rw [date] at dates
        exact absurd dates (by unfold Date.Before; omega)
      · exact (toDigits_lt_iff numbers).mp digits
    · omega
    · have other := List.pairwise_iff_getElem.mp creation n m hn hm last
      exact absurd other (Invocation.before_asymm (.inr ⟨date,numbers⟩))
  · intro aligned
    exact names.imp_of_mem fun mem mem' less => before_of_name_lt aligned (same.mem_iff.mp mem)
      (same.mem_iff.mp mem') less

/-- A walk of its own order is in order of creation exactly when the order is. -/
private theorem walks_iff {p : Platform} {robsddir keepdir : Str} {entries : List Dirent}
    {invs : List Invocation} {flags : SortFlag}
    {names creation : Invocation → Invocation → Prop} (walk : Walks p robsddir keepdir entries invs flags names)
    (agree : ∀ order : List Invocation, order.Perm (walked robsddir keepdir invs) → order.Pairwise names →
      (order.Pairwise creation ↔ Aligned (walked robsddir keepdir invs))) :
    Walks p robsddir keepdir entries invs flags creation ↔ Aligned (walked robsddir keepdir invs) := by
  obtain ⟨order,same,sorted,walk⟩ := walk
  have decided := agree order same sorted
  constructor
  · rintro ⟨order',_,creation,walk'⟩
    rw [walk,Option.some.injEq] at walk'
    have equal := (List.map_injective_iff.mpr fun _ _ => entry_injective) walk'
    subst equal
    exact decided.mp creation
  · intro aligned
    exact ⟨order,same,decided.mpr aligned,walk⟩

/-- The walk is in the order of creation, from the newest or from the oldest,
    exactly when the numbers of each day sort like their digits. -/
theorem walk_iff {p : Platform} {robsddir keepdir : Str} {entries : List Dirent} {invs : List Invocation}
    (here : Listing p robsddir keepdir entries invs) :
    (Walks p robsddir keepdir entries invs .desc (fun i j => j.Before i) ↔ Aligned (walked robsddir keepdir invs)) ∧
    (Walks p robsddir keepdir entries invs .asc (fun i j => i.Before j) ↔ Aligned (walked robsddir keepdir invs)) := by
  refine ⟨walks_iff (walk_desc here) ?_,walks_iff (walk_asc here) fun order same names =>
    ascending_iff same names⟩
  intro order same names
  rw [← List.pairwise_reverse] at names ⊢
  exact ascending_iff (order.reverse_perm.trans same) names

/-- A day in autumn. -/
def autumn : Date := ⟨2024,10,23,by decide,by decide,by decide⟩

/-- Buffers as OpenBSD has them, and sorting by insertion. -/
def openbsd : Platform := ⟨1024,255,Sorting.insertion _,Sorting.insertion _⟩

/-- Invocations on two days, the directory kept for good and a hidden file. -/
def someInvocations : List Invocation :=
  [⟨autumn,2,by decide⟩,⟨⟨2024,9,30,by decide,by decide,by decide⟩,7,by decide⟩,⟨autumn,1,by decide⟩]

def someEntries : List Dirent :=
  someInvocations.map (⟨·.name,true⟩) ++ [⟨"attic".toList,true⟩,⟨".running".toList,false⟩]

theorem walk_iff_sample :
    Listing openbsd "/home/robsd".toList "/home/robsd/attic".toList someEntries someInvocations ∧
    Walks openbsd "/home/robsd".toList "/home/robsd/attic".toList someEntries someInvocations .desc
      (fun i j => j.Before i) ∧
    Walks openbsd "/home/robsd".toList "/home/robsd/attic".toList someEntries someInvocations .asc
      (fun i j => i.Before j) := by
  have here : Listing openbsd "/home/robsd".toList "/home/robsd/attic".toList someEntries someInvocations :=
    ⟨by decide,⟨[⟨"attic".toList,true⟩,⟨".running".toList,false⟩],List.Perm.refl _,by decide⟩,by decide⟩
  have aligned : Aligned (walked "/home/robsd".toList "/home/robsd/attic".toList someInvocations) := by decide
  exact ⟨here,(walk_iff here).1.mpr aligned,(walk_iff here).2.mpr aligned⟩

/-- The ninth and the tenth invocation of a day. -/
def nine : Invocation := ⟨autumn,9,by decide⟩

def ten : Invocation := ⟨autumn,10,by decide⟩

/-- The ninth is returned first although the tenth is newer. -/
theorem ninth_newest :
    ¬ Walks openbsd "/home/robsd".toList "/home/robsd/attic".toList [⟨nine.name,true⟩,⟨ten.name,true⟩]
    [nine,ten] .desc (fun i j => j.Before i) := by
  rintro ⟨order,_,newest,walk⟩
  have computed : (invocationAlloc openbsd "/home/robsd".toList "/home/robsd/attic".toList
      (some [⟨nine.name,true⟩,⟨ten.name,true⟩]) .desc).map walkAll =
        some ([nine,ten].map (Invocation.entry "/home/robsd".toList)) := by
    decide +kernel
  rw [computed,Option.some.injEq] at walk
  have equal := (List.map_injective_iff.mpr fun _ _ => entry_injective) walk
  subst equal
  have before := List.rel_of_pairwise_cons newest List.mem_cons_self
  exact Invocation.before_asymm before (.inr ⟨rfl,by decide⟩)

end Robsd.Invocations
