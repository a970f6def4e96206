import Mathlib.Data.List.Forall2
import Robsd.ConfigSteps

/-!
Resolving the name of a step (`step_id` in util.sh): a search for the name as a
word in the lines robsd-step lists, which contain more than names.
-/
namespace Robsd.StepId
open Robsd.Strings
open Robsd.Configuration (ConfigStep)
open Robsd.ConfigSteps (stepsLine scriptStep endStep)
open Robsd.Decimal (decimal decimal_injective)

/-! ## Searching for words -/

/-- A letter, a digit or an underscore. -/
def isword (c : Char) : Bool := isdigit c || islower c || ('A' ≤ c && c ≤ 'Z') || c = '_'

/-- A pattern of ordinary characters and `.` at the start of a text, with the end
    of a word behind it. -/
def matchesAt : Str → Str → Bool
  | [],rest => !rest.head?.any isword
  | _ :: _,[] => false
  | p :: ps,c :: cs => (p = '.' || p = c) && matchesAt ps cs

/-- The search from a position on, given whether a word is going on there. -/
def searchFrom (pattern : Str) : Bool → Str → Bool
  | inside,[] => !inside && matchesAt pattern []
  | inside,c :: cs => !inside && matchesAt pattern (c :: cs) || searchFrom pattern (isword c) cs

/-- What `grep -w` does with such a pattern. -/
def wordSearch (pattern line : Str) : Bool := searchFrom pattern false line

/-- The characters with a meaning in basic regular expressions other than `.`, and
    those that no pattern for one line contains. -/
def special : Str := ['\\','[','*','^','$','\n',nul]

/-- Names that are taken literally but for `.`, and that begin and end like words:
    elsewhere implementations of `-w` differ. -/
structure Plain (name : Str) : Prop where
  literal : ∀ c ∈ name, c ∉ special
  begins : name.head?.any isword
  ends : name.getLast?.any isword

/-- An occurrence of a pattern as a word. -/
def Occurs (pattern line : Str) : Prop :=
  ∃ before word after, line = before ++ word ++ after ∧ List.Forall₂ (fun p c => p = '.' ∨ p = c) pattern word ∧
    ¬ before.getLast?.any isword ∧ ¬ after.head?.any isword

/-- `grep -w` as it is documented, on plain names. -/
def Documented (grep : Str → Str → Bool) : Prop := ∀ name, Plain name → ∀ line, grep name line = wordSearch name line

/-! ## The pipeline -/

/-- `cut -d ' ' -f 1`. -/
def cut (line : Str) : Str := line.takeWhile (· ≠ ' ')

/-- `step_id` on the lines of robsd-step, with `grep -w`: the lines it prints. The
    report on a missing name is the one of the shell. -/
def stepId (grep : Str → Str → Bool) (steps : List Str) (name : Str) : Except Str (List Str) :=
  if name = [] then .error []
  else
    let id := (steps.filter (grep name)).map cut
    if id = [] then .error ("step_id: ".toList ++ name ++ ": unknown step".toList) else .ok id

/-- The lines of robsd-step for a list of steps. -/
def listed (steps : List ConfigStep) : List Str := steps.mapIdx stepsLine

theorem matchesAt_iff {pattern rest : Str} : matchesAt pattern rest = true ↔
    ∃ word after, rest = word ++ after ∧ List.Forall₂ (fun p c => p = '.' ∨ p = c) pattern word ∧
      ¬ after.head?.any isword := by
  induction pattern generalizing rest with
  | nil =>
    constructor
    · intro ended
      exact ⟨[],rest,rfl,.nil,by simpa [matchesAt] using ended⟩
    · rintro ⟨word,after,rfl,none,ended⟩
      cases none
      simpa [matchesAt] using ended
  | cons p ps ih =>
    cases rest with
    | nil =>
      constructor
      · intro impossible
        cases impossible
      · rintro ⟨word,after,split,all,_⟩
        cases all
        cases split
    | cons c cs =>
      simp only [matchesAt,Bool.and_eq_true,Bool.or_eq_true,decide_eq_true_eq,ih]
      constructor
      · rintro ⟨here,word,after,rfl,all,ended⟩
        exact ⟨c :: word,after,rfl,.cons here all,ended⟩
      · rintro ⟨word,after,split,all,ended⟩
        cases all with
        | cons here all =>
          obtain ⟨rfl,rest⟩ := List.cons.inj split
          exact ⟨here,_,after,rest,all,ended⟩

theorem searchFrom_iff {pattern : Str} {inside : Bool} {line : Str} : searchFrom pattern inside line = true ↔
    ∃ before word after, line = before ++ word ++ after ∧ List.Forall₂ (fun p c => p = '.' ∨ p = c) pattern word ∧
      ¬ (before.getLast?.elim inside isword) = true ∧ ¬ after.head?.any isword := by
  induction line generalizing inside with
  | nil =>
    simp only [searchFrom,Bool.and_eq_true,Bool.not_eq_true',matchesAt_iff]
    constructor
    · rintro ⟨starts,word,after,split,all,ended⟩
      exact ⟨[],word,after,split,all,by simp [starts],ended⟩
    · rintro ⟨before,word,after,split,all,starts,ended⟩
      obtain ⟨rfl,rest⟩ : before = [] ∧ word ++ after = [] := by simpa using split
      exact ⟨by simpa using starts,word,after,rest.symm,all,ended⟩
  | cons c cs ih =>
    simp only [searchFrom,Bool.or_eq_true,Bool.and_eq_true,Bool.not_eq_true',matchesAt_iff,ih]
    constructor
    · rintro (⟨starts,word,after,split,all,ended⟩ | ⟨before,word,after,rfl,all,starts,ended⟩)
      · exact ⟨[],word,after,split,all,by simp [starts],ended⟩
      · refine ⟨c :: before,word,after,rfl,all,?_,ended⟩
        cases before with
        | nil => simpa using starts
        | cons d before => simpa [List.getLast?_cons] using starts
    · rintro ⟨before,word,after,split,all,starts,ended⟩
      cases before with
      | nil => exact .inl ⟨by simpa using starts,word,after,split,all,ended⟩
      | cons d before =>
        obtain ⟨rfl,rest⟩ := List.cons.inj split
        refine .inr ⟨before,word,after,rest,all,?_,ended⟩
        cases before with
        | nil => simpa using starts
        | cons e before => simpa [List.getLast?_cons] using starts

theorem wordSearch_iff {pattern line : Str} : wordSearch pattern line = true ↔ Occurs pattern line := by
  rw [wordSearch,searchFrom_iff,Occurs]
  apply exists_congr
  intro before
  cases before.getLast? <;> simp

/-! ## Which lines are found -/

theorem cut_line (i : Nat) (cs : ConfigStep) : cut (stepsLine i cs) = decimal (i+1) := by
  have digits : ∀ c ∈ decimal (i+1), decide (c ≠ ' ') = true := by
    intro c member
    apply decide_eq_true
    rintro rfl
    exact Decimal.decimal_absent _ (by decide) (by decide) member
  unfold cut stepsLine
  rw [List.append_assoc,List.takeWhile_append_of_pos digits,List.cons_append,
    List.takeWhile_cons_of_neg (by decide),List.append_nil]

/-- The positions of the lines that are found. -/
def found (grep : Str → Str → Bool) (steps : List ConfigStep) (name : Str) : List Nat :=
  ((steps.zipIdx).filter fun p => grep name (stepsLine p.2 p.1)).map (·.2)

theorem found_nodup (grep : Str → Str → Bool) (steps : List ConfigStep) (name : Str) :
    (found grep steps name).Nodup := by
  have positions : (steps.zipIdx.map (·.2)).Nodup := by
    rw [List.zipIdx_map_snd]
    exact List.nodup_range'
  exact positions.sublist (List.filter_sublist.map _)

theorem mem_found {grep : Str → Str → Bool} {steps : List ConfigStep} {name : Str} {i : Nat} :
    i ∈ found grep steps name ↔ ∃ cs, steps[i]? = some cs ∧ grep name (stepsLine i cs) = true := by
  simp only [found,List.mem_map,List.mem_filter,Prod.exists,List.mem_zipIdx_iff_getElem?]
  constructor
  · rintro ⟨cs,_,⟨here,selected⟩,rfl⟩
    exact ⟨cs,here,selected⟩
  · rintro ⟨cs,here,selected⟩
    exact ⟨cs,i,⟨here,selected⟩,rfl⟩

/-- What is printed are the ids of the lines that are found. -/
theorem ids_eq (grep : Str → Str → Bool) (steps : List ConfigStep) (name : Str) :
    ((listed steps).filter (grep name)).map cut = (found grep steps name).map fun i : Nat => decimal (i+1) := by
  simp only [listed,List.mapIdx_eq_zipIdx_map,List.filter_map,List.map_map,found]
  apply List.map_congr_left
  intro p _
  exact cut_line p.2 p.1

/-- A list without repetition consists of one element where it is the only member. -/
theorem eq_singleton_iff {xs : List Nat} (distinct : xs.Nodup) (k : Nat) : xs = [k] ↔ ∀ i, i ∈ xs ↔ i = k := by
  constructor
  · rintro rfl i
    exact List.mem_singleton
  · intro members
    refine List.perm_singleton.mp ((List.perm_ext_iff_of_nodup distinct (by simp)).mpr ?_)
    intro i
    rw [members,List.mem_singleton]

/-- `step_id` prints the id of a step and nothing else. -/
def Resolves (grep : Str → Str → Bool) (steps : List ConfigStep) (k : Nat) (name : Str) : Prop :=
  stepId grep (listed steps) name = .ok [decimal (k+1)]

theorem resolves_iff {grep : Str → Str → Bool} {steps : List ConfigStep} {k : Nat} {name : Str} :
    Resolves grep steps k name ↔ name ≠ [] ∧ found grep steps name = [k] := by
  have ids : (found grep steps name).map (fun i : Nat => decimal (i+1)) = [decimal (k+1)] ↔
    found grep steps name = [k] := by
    have injective : Function.Injective fun i : Nat => decimal (i+1) := by
      intro i j same
      have := decimal_injective same
      omega
    rw [show [decimal (k+1)] = [k].map fun i : Nat => decimal (i+1) from rfl]
    exact (List.map_injective_iff.mpr injective).eq_iff
  rw [Resolves,stepId,ids_eq,← ids]
  by_cases empty : name = []
  · simp [empty]
  · simp only [empty,↓reduceIte,ne_eq,not_false_eq_true,true_and]
    cases selected : (found grep steps name).map fun i : Nat => decimal (i+1) with
    | nil => simp
    | cons id more => simp

/-- The line of a step contains its name as a word. -/
theorem occurs_own {name : Str} {i : Nat} {cs : ConfigStep} (named : cs.name = name) :
    Occurs name (stepsLine i cs) := by
  have behind : ¬ (if cs.parallel then " parallel".toList else []).head?.any isword = true := by
    cases cs.parallel <;> decide
  refine ⟨decimal (i+1) ++ [' '],name,if cs.parallel then " parallel".toList else [],?_,?_,?_,behind⟩
  · rw [stepsLine,named,List.append_assoc (decimal (i+1)) [' '] name]
    rfl
  · exact List.forall₂_same.mpr fun c _ => .inr rfl
  · rw [List.getLast?_append]
    change ¬ isword ' ' = true
    decide

/-- The name of a step resolves to its id exactly when `grep -w` finds its line and
    no other. Its own line is found if the name is plain, so no other line may
    contain the name as a word, be it in an id, in another name or in the word
    `parallel`. -/
theorem stepId_resolves_iff {grep : Str → Str → Bool} (documented : Documented grep) {steps : List ConfigStep} {k : Nat}
    {cs : ConfigStep} (here : steps[k]? = some cs) :
    (Resolves grep steps k cs.name ↔
      cs.name ≠ [] ∧ ∀ i other, steps[i]? = some other → (grep cs.name (stepsLine i other) = true ↔ i = k)) ∧
    (Plain cs.name → (Resolves grep steps k cs.name ↔
      ∀ i other, steps[i]? = some other → i ≠ k → ¬ Occurs cs.name (stepsLine i other))) := by
  have lines : found grep steps cs.name = [k] ↔
      ∀ i other, steps[i]? = some other → (grep cs.name (stepsLine i other) = true ↔ i = k) := by
    rw [eq_singleton_iff (found_nodup grep steps cs.name)]
    simp only [mem_found]
    constructor
    · intro members i other there
      rw [← members i]
      constructor
      · intro selected
        exact ⟨other,there,selected⟩
      · rintro ⟨same,there',selected⟩
        cases there.symm.trans there'
        exact selected
    · intro selected i
      constructor
      · rintro ⟨other,there,searched⟩
        exact (selected i other there).mp searched
      · rintro rfl
        exact ⟨cs,here,(selected i cs here).mpr rfl⟩
  refine ⟨resolves_iff.trans (and_congr_right fun _ => lines),?_⟩
  intro plain
  have named : cs.name ≠ [] := by
    intro empty
    have begins := plain.begins
    rw [empty] at begins
    cases begins
  have searched : ∀ i other, grep cs.name (stepsLine i other) = true ↔ Occurs cs.name (stepsLine i other) := by
    intro i other
    rw [documented cs.name plain,wordSearch_iff]
  rw [resolves_iff,and_iff_right named,lines]
  simp only [searched]
  constructor
  · intro exactly i other there apart occurs
    exact apart ((exactly i other there).mp occurs)
  · intro free i other there
    constructor
    · intro occurs
      by_contra apart
      exact free i other there apart occurs
    · rintro rfl
      cases here.symm.trans there
      exact occurs_own rfl

/-- The steps of a canvas, of which one is named after another one. -/
def related : List ConfigStep :=
  [⟨"build".toList,["env".toList,"make".toList],false⟩,
    ⟨"build-docs".toList,["env".toList,"make".toList,"docs".toList],true⟩,scriptStep endStep false]

theorem documented_wordSearch : Documented wordSearch := fun _ _ _ => rfl

theorem stepId_resolves_iff_end : Resolves wordSearch related 2 "end".toList ↔
    ∀ i other, related[i]? = some other → i ≠ 2 → ¬ Occurs "end".toList (stepsLine i other) :=
  ((@stepId_resolves_iff _ documented_wordSearch related 2 (scriptStep endStep false)) rfl).2
    ⟨by decide,by decide,by decide⟩

/-- Both lines are found for the shorter name. -/
theorem stepId_related : Documented wordSearch ∧ related[0]?.map (·.name) = some "build".toList ∧
    (related.map (·.name)).count "build".toList = 1 ∧
      stepId wordSearch (listed related) "build".toList = .ok ["1".toList,"2".toList] ∧
    ¬ Resolves wordSearch related 0 "build".toList := by
  refine ⟨documented_wordSearch,rfl,by decide,by decide,?_⟩
  unfold Resolves
  decide

end Robsd.StepId
