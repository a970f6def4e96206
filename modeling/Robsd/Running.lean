import Mathlib.Logic.Function.Basic
import Robsd.Strings
import Robsd.Transition

/-!
The file `.running` (util.sh, robsd-kill): invocations with different build
directories read it and write it in `lock_acquire`, touch and compare it in
`lock_alive`, compare and remove it in `lock_release`, one system call after
another, while `robsd-kill` makes it immutable.
-/
namespace Robsd.Running
open Robsd.Strings
open Robsd.Transition
universe u

/-- The build directories of the invocations. -/
structure Dirs (ι : Type u) where
  name : ι → Str
  distinct : Function.Injective name
  filled : ∀ i, name i ≠ []
  line : ∀ i, '\n' ∉ name i

/-- A file, identified by its inode. -/
structure File where
  inode : Nat
  data : Str
  deriving DecidableEq, Repr

/-- Where an invocation is: outside of the functions; in `lock_acquire` after its
    read, or after it has opened the file; executing steps; in `lock_alive` after
    the touch; on its way out; in `lock_release` after the comparison, or after
    `chflags`. -/
inductive Pc where
  | idle
  | checked
  | opened (inode : Nat)
  | executing
  | touched
  | leaving
  | matched
  | unlocked
  deriving DecidableEq, Repr

structure State (ι : Type u) where
  file : Option File
  immutable : Bool
  fresh : Nat
  pc : ι → Pc

inductive Action (ι : Type u) where
  | read (i : ι)
  | truncate (i : ι)
  | write (i : ι)
  | touch (i : ι)
  | compare (i : ι)
  | finish (i : ι)
  | release (i : ι)
  | chflags (i : ι)
  | remove (i : ι)
  | abort (i : ι)
  | kill

/-- `$(cat .running)`. -/
def owner (file : Option File) : Str :=
  match file with
  | some f => (f.data.reverse.dropWhile (· = '\n')).reverse
  | none => []

variable {ι : Type u} [DecidableEq ι] (d : Dirs ι)

/-- `echo ${_builddir}`. -/
def Dirs.echo (i : ι) : Str := d.name i ++ ['\n']

/-- `cmp -s - .running`. -/
def Dirs.cmp (i : ι) (file : Option File) : Bool := file.map File.data = some (d.echo i)

def State.at (s : State ι) (i : ι) (pc : Pc) : State ι := { s with pc := Function.update s.pc i pc }

def step (s : State ι) : Action ι → Option (State ι)
  | .read i =>
    if s.pc i = .idle then
      if owner s.file ≠ [] ∧ owner s.file ≠ d.name i then some (s.at i .leaving) else some (s.at i .checked)
    else none
  | .truncate i =>
    if s.pc i = .checked then
      if s.immutable then some (s.at i .leaving)
      else match s.file with
        | some f => some { s.at i (.opened f.inode) with file := some ⟨f.inode,[]⟩ }
        | none => some { s.at i (.opened s.fresh) with file := some ⟨s.fresh,[]⟩, fresh := s.fresh+1 }
    else none
  | .write i =>
    match s.pc i,s.file with
    | .opened n,some f =>
      -- Two files opened at once are written from the start both.
      if f.inode = n then some { s.at i .executing with file := some ⟨n,d.echo i ++ f.data.drop (d.echo i).length⟩ }
      else some (s.at i .executing)
    | .opened _,none => some (s.at i .executing)
    | _,_ => none
  | .touch i =>
    if s.pc i = .executing then
      if s.immutable then some (s.at i .leaving)
      else match s.file with
        | some _ => some (s.at i .touched)
        | none => some { s.at i .touched with file := some ⟨s.fresh,[]⟩, fresh := s.fresh+1 }
    else none
  | .compare i => if s.pc i = .touched then some (s.at i (if d.cmp i s.file then .executing else .leaving)) else none
  | .finish i => if s.pc i = .executing then some (s.at i .leaving) else none
  | .release i => if s.pc i = .leaving then some (s.at i (if d.cmp i s.file then .matched else .idle)) else none
  | .chflags i => if s.pc i = .matched then some { s.at i .unlocked with immutable := false } else none
  | .remove i =>
    if s.pc i = .unlocked then
      if s.immutable then some (s.at i .idle) else some { s.at i .idle with file := none }
    else none
  | .abort i => some (s.at i .idle)
  | .kill => if s.file.isSome then some { s with immutable := true } else none

/-- Invocations start with whatever file is there. -/
def running : System (State ι) (Action ι) where
  start s := (∀ i, s.pc i = .idle) ∧ ∀ f, s.file = some f → f.inode < s.fresh
  step := step d

/-- An invocation is between its read and the end of its write. -/
def acquiring : Pc → Bool
  | .checked => true
  | .opened _ => true
  | _ => false

/-- An invocation has passed `lock_acquire` and executes steps, until it finds the
    lock lost or leaves. -/
def active : Pc → Bool
  | .executing => true
  | .touched => true
  | _ => false

/-- No one reads while another invocation is acquiring. -/
def Undisturbed (s : State ι) : Action ι → Prop
  | .read i => ∀ j, j ≠ i → acquiring (s.pc j) = false
  | _ => True

/-! ## The invariant -/

/-- An invocation has read successfully and not left, or is about to remove the file. -/
def inside : Pc → Bool
  | .idle => false
  | .leaving => false
  | _ => true

/-- What an invocation knows about the file. -/
def Holds (file : Option File) (i : ι) : Pc → Prop
  | .idle => True
  | .leaving => True
  | .checked => owner file = [] ∨ owner file = d.name i
  | .opened n => file = some ⟨n,[]⟩
  | _ => d.cmp i file = true

structure Exclusive (s : State ι) : Prop where
  alone : ∀ i j, inside (s.pc i) = true → inside (s.pc j) = true → i = j
  holds : ∀ i, Holds d s.file i (s.pc i)

variable {d} {s s' : State ι}

omit [DecidableEq ι] in
/-- The line a build directory writes names it. -/
theorem owner_echo (n : Nat) (i : ι) : owner (some ⟨n,d.echo i⟩) = d.name i := by
  have first : (d.name i).reverse.dropWhile (· = '\n') = (d.name i).reverse := by
    cases shape : (d.name i).reverse with
    | nil => rfl
    | cons c cs =>
      have member : c ∈ d.name i := List.mem_reverse.mp (by rw [shape]; simp)
      have other : c ≠ '\n' := by
        rintro rfl
        exact d.line i member
      rw [List.dropWhile_cons_of_neg (by simpa using other)]
  simp [owner,Dirs.echo,first]

omit [DecidableEq ι] in
theorem cmp_owner {i : ι} {file : Option File} (same : d.cmp i file = true) : owner file = d.name i := by
  cases file with
  | none => simp [Dirs.cmp] at same
  | some f =>
    obtain ⟨n,data⟩ := f
    have line : data = d.echo i := by simpa [Dirs.cmp] using same
    rw [line,owner_echo]

omit [DecidableEq ι] in
/-- Who holds the file makes it unreadable for others. -/
theorem holds_owner {file : Option File} {i : ι} {pc : Pc} (holds : Holds d file i pc) (in_ : inside pc = true) :
    owner file = d.name i ∨ owner file = [] ∧ acquiring pc = true := by
  cases pc with
  | idle => cases in_
  | leaving => cases in_
  | checked =>
    rcases holds with empty | own
    · exact .inr ⟨empty,rfl⟩
    · exact .inl own
  | opened n =>
    rw [show file = some ⟨n,[]⟩ from holds]
    exact .inr ⟨rfl,rfl⟩
  | executing => exact .inl (cmp_owner holds)
  | touched => exact .inl (cmp_owner holds)
  | matched => exact .inl (cmp_owner holds)
  | unlocked => exact .inl (cmp_owner holds)

/-- Where no other invocation is inside, one may go inside or move on. -/
theorem exclusive_at {file : Option File} {immutable : Bool} {fresh : Nat} {i : ι} {pc : Pc}
    (others : ∀ j, j ≠ i → inside (s.pc j) = false) (holds : Holds d file i pc) :
    Exclusive d ⟨file,immutable,fresh,Function.update s.pc i pc⟩ := by
  have outside : ∀ j, j ≠ i → inside (Function.update s.pc i pc j) = false := by
    intro j other
    rw [Function.update_of_ne other]
    exact others j other
  refine ⟨?_,?_⟩
  · intro j k first second
    have own : ∀ j, inside (Function.update s.pc i pc j) = true → j = i := by
      intro j in_
      by_contra other
      rw [outside j other] at in_
      cases in_
    rw [own j first,own k second]
  · intro j
    by_cases same : j = i
    · subst same
      dsimp only
      rw [Function.update_self]
      exact holds
    · have out := outside j same
      dsimp only
      cases pc' : Function.update s.pc i pc j with
      | idle => trivial
      | leaving => trivial
      | _ => rw [pc'] at out; cases out

/-- Going outside changes nothing for the others. -/
theorem exclusive_outside (here : Exclusive d s) {i : ι} {pc : Pc} (out : inside pc = false) :
    Exclusive d (s.at i pc) := by
  have kept : ∀ j, inside ((s.at i pc).pc j) = true → j ≠ i ∧ (s.at i pc).pc j = s.pc j := by
    intro j in_
    by_cases same : j = i
    · subst same
      simp only [State.at,Function.update_self,out] at in_
      cases in_
    · exact ⟨same,Function.update_of_ne same _ _⟩
  refine ⟨?_,?_⟩
  · intro j k first second
    have first' := (kept j first).2
    have second' := (kept k second).2
    rw [first'] at first
    rw [second'] at second
    exact here.alone j k first second
  · intro j
    cases in_ : inside ((s.at i pc).pc j) with
    | true =>
      rw [(kept j in_).2]
      exact here.holds j
    | false =>
      cases pc' : (s.at i pc).pc j with
      | idle => trivial
      | leaving => trivial
      | _ => rw [pc'] at in_; cases in_

omit [DecidableEq ι] in
/-- Around one that is inside, all others are outside. -/
theorem others_outside (here : Exclusive d s) {i : ι} (in_ : inside (s.pc i) = true) :
    ∀ j, j ≠ i → inside (s.pc j) = false := by
  intro j other
  by_contra also
  rw [Bool.not_eq_false] at also
  exact other (here.alone j i also in_)

theorem step_exclusive {a : Action ι} (here : Exclusive d s) (undisturbed : Undisturbed s a)
    (taken : step d s a = some s') :
    Exclusive d s' := by
  cases a with
  | read i =>
    simp only [step,Option.ite_none_right_eq_some] at taken
    obtain ⟨idle,taken⟩ := taken
    split_ifs at taken with foreign
    · cases taken
      exact exclusive_outside here rfl
    · cases taken
      have free : owner s.file = [] ∨ owner s.file = d.name i := by
        by_cases empty : owner s.file = []
        · exact .inl empty
        · exact .inr (not_not.mp fun other => foreign ⟨empty,other⟩)
      refine exclusive_at ?_ free
      intro j other
      by_contra in_
      rw [Bool.not_eq_false] at in_
      rcases holds_owner (here.holds j) in_ with named | ⟨_,acquires⟩
      · rcases free with empty | own
        · exact d.filled j (named.symm.trans empty)
        · exact other (d.distinct (named.symm.trans own))
      · rw [undisturbed j other] at acquires
        cases acquires
  | truncate i =>
    simp only [step,Option.ite_none_right_eq_some] at taken
    obtain ⟨checked,taken⟩ := taken
    have others := others_outside here (i := i) (by rw [checked]; rfl)
    split_ifs at taken
    · cases taken
      exact exclusive_outside here rfl
    · cases file : s.file with
      | some f =>
        rw [file] at taken
        cases taken
        exact exclusive_at others rfl
      | none =>
        rw [file] at taken
        cases taken
        exact exclusive_at others rfl
  | write i =>
    simp only [step] at taken
    cases pc : s.pc i with
    | opened n =>
      have opened := here.holds i
      rw [pc] at opened
      have file : s.file = some ⟨n,[]⟩ := opened
      simp only [pc,file,↓reduceIte,List.drop_nil,List.append_nil] at taken
      cases taken
      exact exclusive_at (others_outside here (by rw [pc]; rfl)) (by simp [Holds,Dirs.cmp])
    | _ => simp [pc] at taken
  | touch i =>
    simp only [step,Option.ite_none_right_eq_some] at taken
    obtain ⟨executing,taken⟩ := taken
    have others := others_outside here (i := i) (by rw [executing]; rfl)
    have holds := here.holds i
    rw [executing] at holds
    split_ifs at taken
    · cases taken
      exact exclusive_outside here rfl
    · cases file : s.file with
      | some f =>
        rw [file] at taken
        cases taken
        exact exclusive_at others holds
      | none =>
        rw [file] at holds
        cases holds
  | compare i =>
    simp only [step,Option.ite_none_right_eq_some,Option.some.injEq] at taken
    obtain ⟨touched,rfl⟩ := taken
    have others := others_outside here (i := i) (by rw [touched]; rfl)
    have holds : d.cmp i s.file = true := by
      have holds := here.holds i
      rwa [touched] at holds
    rw [if_pos holds]
    exact exclusive_at others holds
  | finish i =>
    simp only [step,Option.ite_none_right_eq_some,Option.some.injEq] at taken
    obtain ⟨_,rfl⟩ := taken
    exact exclusive_outside here rfl
  | release i =>
    simp only [step,Option.ite_none_right_eq_some,Option.some.injEq] at taken
    obtain ⟨_,rfl⟩ := taken
    split_ifs with own
    · refine exclusive_at ?_ own
      intro j other
      by_contra in_
      rw [Bool.not_eq_false] at in_
      rcases holds_owner (here.holds j) in_ with named | ⟨empty,_⟩
      · exact other (d.distinct (named.symm.trans (cmp_owner own)))
      · exact d.filled i ((cmp_owner own).symm.trans empty)
    · exact exclusive_outside here rfl
  | chflags i =>
    simp only [step,Option.ite_none_right_eq_some,Option.some.injEq] at taken
    obtain ⟨matched,rfl⟩ := taken
    have holds := here.holds i
    rw [matched] at holds
    exact exclusive_at (others_outside here (by rw [matched]; rfl)) holds
  | remove i =>
    simp only [step,Option.ite_none_right_eq_some] at taken
    obtain ⟨unlocked,taken⟩ := taken
    split_ifs at taken
    · cases taken
      exact exclusive_outside here rfl
    · cases taken
      exact exclusive_at (others_outside here (by rw [unlocked]; rfl)) trivial
  | abort i =>
    cases taken
    exact exclusive_outside here rfl
  | kill =>
    simp only [step,Option.ite_none_right_eq_some,Option.some.injEq] at taken
    obtain ⟨_,rfl⟩ := taken
    exact ⟨here.alone,here.holds⟩

/-- Among invocations that read the file only while no other one is acquiring, never
    two execute steps at the same time. -/
theorem mutual_exclusion (d : Dirs ι) (reached : (running d).Reaches Undisturbed s) {i j : ι}
    (first : active (s.pc i) = true) (second : active (s.pc j) = true) : i = j := by
  have start : ∀ s, (running d).start s → Exclusive d s := by
    rintro s ⟨idle,_⟩
    refine ⟨?_,?_⟩
    · intro i _ in_
      rw [idle i] at in_
      cases in_
    · intro i
      rw [idle i]
      trivial
  have here := invariant (I := Exclusive d) start (fun _ _ _ here undisturbed taken =>
    step_exclusive here undisturbed taken) reached
  have in_ : ∀ pc, active pc = true → inside pc = true := by
    intro pc act
    cases pc <;> first | rfl | cases act
  exact here.alone i j (in_ _ first) (in_ _ second)

/-! ## Two invocations -/

def twoDirs : Dirs Bool where
  name i := if i then "/home/robsd/2024-01-01.1".toList else "/home/robsd/2024-01-02.1".toList
  distinct i j same := by
    cases i <;> cases j <;> first | rfl | exact absurd same (by decide)
  filled := by decide
  line := by decide

def nobody : State Bool := ⟨none,false,0,fun _ => .idle⟩

theorem nobody_start : (running twoDirs).start nobody := ⟨fun _ => rfl,nofun⟩

/-- One after the other: the second finds the lock taken. -/
def polite : List (Action Bool) := [.read true,.truncate true,.write true,.read false,.touch true,.compare true]

def politeTest (s : State Bool) : Action Bool → Bool
  | .read i => !acquiring (s.pc !i)
  | _ => true

theorem mutual_exclusion_sample : ∃ s, (running twoDirs).Reaches Undisturbed s ∧ active (s.pc true) = true ∧
    ∀ j, active (s.pc j) = true → true = j := by
  have ran : ((running twoDirs).runIf politeTest nobody polite).map (fun s => active (s.pc true)) = some true :=
    by decide
  obtain ⟨s,ran,first⟩ := Option.map_eq_some_iff.mp ran
  have test : ∀ s a, politeTest s a = true → Undisturbed s a := by
    intro s a passes
    cases a with
    | read i =>
      intro j other
      rw [show j = !i from by cases i <;> cases j <;> first | rfl | exact absurd rfl other]
      simpa [politeTest] using passes
    | _ => trivial
  have reached := reaches_runIf test (.start nobody_start) ran
  exact ⟨s,reached,first,fun j second => mutual_exclusion twoDirs reached first second⟩

/-- Both read before either writes. -/
theorem both_execute : ∃ s, (running twoDirs).Reachable s ∧ active (s.pc true) = true ∧ active (s.pc false) = true := by
  have ran : ((running twoDirs).run nobody [.read true,.read false,.truncate true,.write true,
    .truncate false,.write false]).map
      (fun s => (active (s.pc true),active (s.pc false))) = some (true,true) := by decide
  obtain ⟨s,reached,both⟩ := reachable_map (.start nobody_start) ran
  obtain ⟨first,second⟩ := Prod.mk.inj both
  exact ⟨s,reached,first,second⟩

end Robsd.Running
