import Mathlib.Algebra.Order.BigOperators.Group.Finset
import Mathlib.Data.Fintype.EquivFin
import Mathlib.Data.Prod.Lex
import Robsd.StepCommand
import Robsd.Transition

/-!
Any number of `robsd-step` processes on one step file, interleaved step by step:
the lock is taken on one descriptor, the content is read through a second and
rewritten through a third that truncates the file in place.
-/
namespace Robsd.StepLock
open Robsd.Strings
open Robsd.Steps
open Robsd.StepCommand
open Robsd.Sorting (Qsort)
open Robsd.Transition

/-! ## Processes -/

/-- What a process was started for. -/
inductive Job where
  | read (opts : List ReadOption) (args : List Arg) (stdin : Str)
  | write (opts : List WriteOption) (kvs : List Arg)

/-- The bytes a process writes after it has read the given text, if it comes to that. -/
def Job.rewrites (q : Qsort Step.id) (text : Str) : Job → Option Str
  | .read _ _ _ => none
  | .write opts kvs =>
    match stepsParse text with
    | .error _ => none
    | .ok sf =>
      match actionWrite q sf.steps opts kvs with
      | .ok (.rewrite bytes) => some bytes
      | _ => none

/-- The content a process leaves when it runs alone. -/
def Job.apply (q : Qsort Step.id) (text : Str) : Job → Str
  | .read _ _ _ => text
  | .write opts kvs => (robsdStepWrite q opts kvs text).2

theorem rewrites_apply (q : Qsort Step.id) (text : Str) (job : Job) :
    (job.rewrites q text).getD text = job.apply q text := by
  cases job with
  | read opts args stdin => rfl
  | write opts kvs =>
    simp only [Job.rewrites,Job.apply,robsdStepWrite]
    cases stepsParse text with
    | error e => rfl
    | ok sf =>
      dsimp only
      cases actionWrite q sf.steps opts kvs with
      | error e => rfl
      | ok effect => cases effect <;> rfl

/-- How far a process is. From `parsed` on, `text` is all that was read. -/
inductive Pc where
  | idle
  | opened
  | locked
  | reading (got : Str)
  | parsed (text : Str)
  | writing (text done rest : Str)
  | finishing (text : Str)
  | exited (text : Str)
  deriving DecidableEq

/-- A process that neither holds the lock nor has held it, or has given it back. -/
def Pc.quiet : Pc → Prop
  | .idle => True
  | .opened => True
  | .exited _ => True
  | _ => False

/-- The whole content a process has read, once it has. -/
def Pc.seen : Pc → Option Str
  | .parsed text => some text
  | .writing text _ _ => some text
  | .finishing text => some text
  | .exited text => some text
  | _ => none

/-- The file, its lock, all processes, and the order in which the lock was acquired. -/
structure State (P : Type) where
  content : Str
  lock : Option P
  pc : P → Pc
  order : List P

/-- The single steps of a process. -/
inductive Action (P : Type) where
  | openLock (p : P)
  | flock (p : P)
  | openRead (p : P)
  | read (p : P) (n : Nat)
  | eof (p : P)
  | truncate (p : P)
  | write (p : P) (n : Nat)
  | close (p : P)
  | keep (p : P)
  | unlock (p : P)

/-- `write(2)` at an offset: a gap behind the end is filled with NUL. -/
def writeAt (content : Str) (offset : Nat) (chunk : Str) : Str :=
  (content ++ List.replicate (offset-content.length) nul).take offset ++ chunk ++ content.drop (offset+chunk.length)

theorem writeAt_end (content chunk : Str) : writeAt content content.length chunk = content ++ chunk := by
  simp [writeAt]

section
variable {P : Type} [DecidableEq P]

def State.at (s : State P) (p : P) (pc : Pc) : State P := { s with pc := Function.update s.pc p pc }

/-- The effect of a step: `flock` waits for the lock, reading and writing
    transfer at least one character, and the file is opened for writing only
    when all the bytes are there. -/
def step (q : Qsort Step.id) (job : P → Job) (s : State P) : Action P → Option (State P)
  | .openLock p => if s.pc p = .idle then some (s.at p .opened) else none
  | .flock p =>
    if s.pc p = .opened ∧ s.lock = none then
      some { s.at p .locked with lock := some p, order := s.order ++ [p] }
    else none
  | .openRead p => if s.pc p = .locked then some (s.at p (.reading [])) else none
  | .read p n =>
    match s.pc p with
    | .reading got =>
      let chunk := (s.content.drop got.length).take n
      if chunk ≠ [] then some (s.at p (.reading (got ++ chunk))) else none
    | _ => none
  | .eof p =>
    match s.pc p with
    | .reading got => if s.content.drop got.length = [] then some (s.at p (.parsed got)) else none
    | _ => none
  | .truncate p =>
    match s.pc p with
    | .parsed text =>
      match (job p).rewrites q text with
      | some bytes => some { s.at p (.writing text [] bytes) with content := [] }
      | none => none
    | _ => none
  | .write p n =>
    match s.pc p with
    | .writing text done rest =>
      let chunk := rest.take n
      if chunk ≠ [] then
        some
          { s.at p (.writing text (done ++ chunk) (rest.drop n)) with content := writeAt s.content done.length chunk }
      else none
    | _ => none
  | .close p =>
    match s.pc p with
    | .writing text _ rest => if rest = [] then some (s.at p (.finishing text)) else none
    | _ => none
  | .keep p =>
    match s.pc p with
    | .parsed text => if (job p).rewrites q text = none then some (s.at p (.finishing text)) else none
    | _ => none
  | .unlock p =>
    match s.pc p with
    | .finishing text => some { s.at p (.exited text) with lock := none }
    | _ => none

/-- All processes on a file with the given content. -/
def processes (q : Qsort Step.id) (job : P → Job) (content : Str) : System (State P) (Action P) where
  start s := s = ⟨content,none,fun _ => .idle,[]⟩
  step := step q job

end

/-! ## What the lock protects -/

section
variable {P : Type} (q : Qsort Step.id) (job : P → Job) (content : Str)

/-- The content after the jobs of some processes were applied one after another. -/
def applyAll (ps : List P) : Str := ps.foldl (fun text p => (job p).apply q text) content

/-- A text is the content right before a process had its turn. -/
def Before (order : List P) (p : P) (text : Str) : Prop :=
  ∃ pre post, order = pre ++ p :: post ∧ text = applyAll q job content pre

/-- What the holder of the lock has done, the content having been `base`. -/
def Holding (p : P) (base now : Str) : Pc → Prop
  | .locked => now = base
  | .reading got => now = base ∧ got <+: base
  | .parsed text => now = base ∧ text = base
  | .writing text done rest => text = base ∧ (job p).rewrites q base = some (done ++ rest) ∧ now = done
  | .finishing text => text = base ∧ now = (job p).apply q base
  | _ => False

/-- What holds in every state: whoever has exited saw the content before its
    turn; without a holder the file is the outcome of all turns; and with one,
    the outcome of the turns before it, as far as the holder has left it. -/
structure Serial (s : State P) : Prop where
  once : s.order.Nodup
  waiting : ∀ p, p ∈ s.order ↔ s.pc p ≠ .idle ∧ s.pc p ≠ .opened
  exited : ∀ p text, s.pc p = .exited text → Before q job content s.order p text
  free : s.lock = none → s.content = applyAll q job content s.order ∧ ∀ p, (s.pc p).quiet
  held : ∀ p, s.lock = some p →
    (∃ pre, s.order = pre ++ [p] ∧ Holding q job p (applyAll q job content pre) s.content (s.pc p)) ∧
    ∀ other, other ≠ p → (s.pc other).quiet

variable {q job content}

theorem start_serial : Serial q job content ⟨content,none,fun _ => .idle,[]⟩ :=
  ⟨.nil,by simp,nofun,fun _ => ⟨rfl,fun _ => trivial⟩,nofun⟩

/-- A process in the middle of its turn holds the lock. -/
theorem holder {s : State P} (here : Serial q job content s) {p : P} (busy : ¬ (s.pc p).quiet) :
    s.lock = some p ∧ (∃ pre, s.order = pre ++ [p] ∧ Holding q job p (applyAll q job content pre) s.content (s.pc p)) ∧
      ∀ other, other ≠ p → (s.pc other).quiet := by
  cases lock : s.lock with
  | none => exact absurd ((here.free lock).2 p) busy
  | some h =>
    obtain ⟨turn,others⟩ := here.held h lock
    by_cases same : p = h
    · subst same
      exact ⟨rfl,turn,others⟩
    · exact absurd (others p same) busy

/-- Whatever a process has read is the content right before its turn. -/
theorem seen_before {s : State P} (here : Serial q job content s) {p : P} {text : Str}
    (seen : (s.pc p).seen = some text) :
    Before q job content s.order p text := by
  by_cases quiet : (s.pc p).quiet
  · have gone : s.pc p = .exited text := by
      cases pc : s.pc p <;> rw [pc] at seen quiet <;> first | exact quiet.elim | (cases seen; done) | (cases seen; rfl)
    exact here.exited p text gone
  · obtain ⟨_,⟨pre,order,turn⟩,_⟩ := holder here quiet
    refine ⟨pre,[],order,?_⟩
    cases pc : s.pc p with
    | parsed _ => rw [pc] at seen turn; cases seen; exact turn.2
    | writing _ _ _ => rw [pc] at seen turn; cases seen; exact turn.1
    | finishing _ => rw [pc] at seen turn; cases seen; exact turn.1
    | exited _ => rw [pc] at quiet; exact absurd trivial quiet
    | _ => rw [pc] at seen; cases seen

theorem applyAll_append (pre : List P) (p : P) :
    applyAll q job content (pre ++ [p]) = (job p).apply q (applyAll q job content pre) := by
  simp [applyAll]

variable [DecidableEq P]

/-- A step of the holder within its turn. -/
theorem holder_step {s s' : State P} (here : Serial q job content s) {p : P} {pc : Pc} {now : Str}
    (busy : ¬ (s.pc p).quiet) (after : s' = { s.at p pc with content := now })
    (kept : ∀ base, Holding q job p base s.content (s.pc p) → Holding q job p base now pc) :
    Serial q job content s' := by
  obtain ⟨lock,⟨pre,order,turn⟩,others⟩ := holder here busy
  have moved := kept _ turn
  have busy' : pc ≠ .idle ∧ pc ≠ .opened ∧ ∀ text, pc ≠ .exited text := by
    refine ⟨?_,?_,fun text => ?_⟩ <;> rintro rfl <;> exact moved
  subst after
  refine ⟨here.once,?_,?_,?_,?_⟩
  · intro other
    by_cases same : other = p
    · subst same
      simp only [State.at,Function.update_self]
      simp [order,busy'.1,busy'.2.1]
    · simpa only [State.at,Function.update_of_ne same] using here.waiting other
  · intro other text gone
    by_cases same : other = p
    · subst same
      simp only [State.at,Function.update_self] at gone
      exact absurd gone (busy'.2.2 text)
    · simp only [State.at,Function.update_of_ne same] at gone
      exact here.exited other text gone
  · intro free
    simp only [State.at,lock] at free
    cases free
  · intro h held
    simp only [State.at,lock,Option.some.injEq] at held
    subst held
    refine ⟨⟨pre,order,?_⟩,?_⟩
    · simpa only [State.at,Function.update_self] using moved
    · intro other different
      simpa only [State.at,Function.update_of_ne different] using others other different

/-- A process opens the lock file: it waits, and nothing else changes. -/
theorem openLock_serial {s : State P} (here : Serial q job content s) {p : P} (idle : s.pc p = .idle) :
    Serial q job content (s.at p .opened) := by
  have away : ∀ h, s.lock = some h → p ≠ h := by
    rintro h lock rfl
    obtain ⟨pre,_,turn⟩ := (here.held p lock).1
    rw [idle] at turn
    exact turn
  refine ⟨here.once,?_,?_,fun free => ⟨(here.free free).1,?_⟩,
    ?_⟩
  · intro other
    by_cases same : other = p
    · subst same
      have := here.waiting other
      simp only [State.at,Function.update_self]
      simpa [idle] using this
    · simpa only [State.at,Function.update_of_ne same] using here.waiting other
  · intro other text gone
    by_cases same : other = p
    · subst same
      simp [State.at] at gone
    · simp only [State.at,Function.update_of_ne same] at gone
      exact here.exited other text gone
  · intro other
    by_cases same : other = p
    · subst same
      simp [State.at,Pc.quiet]
    · simpa only [State.at,Function.update_of_ne same] using (here.free free).2 other
  · intro h held
    obtain ⟨turn,others⟩ := here.held h held
    have different := away h held
    refine ⟨?_,?_⟩
    · simpa only [State.at,Function.update_of_ne different.symm] using turn
    · intro other apart
      by_cases same : other = p
      · subst same
        simp [State.at,Pc.quiet]
      · simpa only [State.at,Function.update_of_ne same] using others other apart

/-- A process gets the lock: its turn begins, behind those before it. -/
theorem flock_serial {s : State P} (here : Serial q job content s) {p : P} (opened : s.pc p = .opened)
    (lock : s.lock = none) :
    Serial q job content { s.at p .locked with lock := some p, order := s.order ++ [p] } := by
  have fresh : p ∉ s.order := by
    rw [here.waiting p]
    simp [opened]
  refine ⟨?_,?_,?_,nofun,?_⟩
  · refine List.nodup_append.mpr ⟨here.once,by simp,?_⟩
    rintro a member b last rfl
    exact fresh (List.mem_singleton.mp last ▸ member)
  · intro other
    by_cases same : other = p
    · subst same
      simp [State.at]
    · simpa [State.at,same] using here.waiting other
  · intro other text gone
    by_cases same : other = p
    · subst same
      simp [State.at] at gone
    · simp only [State.at,Function.update_of_ne same] at gone
      obtain ⟨pre,post,order,seen⟩ := here.exited other text gone
      exact ⟨pre,post ++ [p],by simp [order],seen⟩
  · intro h held
    simp only [Option.some.injEq] at held
    subst held
    refine ⟨⟨s.order,rfl,?_⟩,?_⟩
    · simpa [State.at,Holding] using (here.free lock).1
    · intro other apart
      simpa [State.at,apart] using (here.free lock).2 other

/-- A process gives the lock up: the file is what the turns so far have made of it. -/
theorem unlock_serial {s : State P} (here : Serial q job content s) {p : P} {text : Str}
    (finishing : s.pc p = .finishing text) :
    Serial q job content { s.at p (.exited text) with lock := none } := by
  obtain ⟨lock,⟨pre,order,turn⟩,others⟩ := holder here (p := p) (by simp [finishing,Pc.quiet])
  rw [finishing] at turn
  obtain ⟨rfl,now⟩ := turn
  refine ⟨here.once,?_,?_,fun _ => ⟨?_,?_⟩,nofun⟩
  · intro other
    by_cases same : other = p
    · subst same
      simp [State.at,order]
    · simpa only [State.at,Function.update_of_ne same] using here.waiting other
  · intro other text gone
    by_cases same : other = p
    · subst same
      simp only [State.at,Function.update_self,Pc.exited.injEq] at gone
      exact ⟨pre,[],order,gone.symm⟩
    · simp only [State.at,Function.update_of_ne same] at gone
      exact here.exited other text gone
  · simp only [State.at]
    rw [now,order,applyAll_append]
  · intro other
    by_cases same : other = p
    · subst same
      simp [State.at,Pc.quiet]
    · simpa only [State.at,Function.update_of_ne same] using others other same

theorem step_serial {s s' : State P} {a : Action P} (here : Serial q job content s) (taken : step q job s a = some s') :
    Serial q job content s' := by
  cases a with
  | openLock p =>
    simp only [step] at taken
    split at taken
    · next idle =>
      cases taken
      exact openLock_serial here idle
    · cases taken
  | flock p =>
    simp only [step] at taken
    split at taken
    · next waits =>
      cases taken
      exact flock_serial here waits.1 waits.2
    · cases taken
  | openRead p =>
    simp only [step] at taken
    split at taken
    · next locked =>
      cases taken
      apply holder_step here (by simp [locked,Pc.quiet]) rfl
      intro base turn
      rw [locked] at turn
      exact ⟨turn,List.nil_prefix⟩
    · cases taken
  | read p n =>
    simp only [step] at taken
    split at taken
    · next got reading =>
      split at taken
      · cases taken
        apply holder_step here (by simp [reading,Pc.quiet]) rfl
        intro base turn
        rw [reading] at turn
        obtain ⟨rfl,⟨rest,whole⟩⟩ := turn
        refine ⟨rfl,?_⟩
        rw [← whole,List.drop_left]
        exact (List.prefix_append_right_inj got).mpr (List.take_prefix n rest)
      · cases taken
    · cases taken
  | eof p =>
    simp only [step] at taken
    split at taken
    · next got reading =>
      split at taken
      · next ended =>
        cases taken
        apply holder_step here (by simp [reading,Pc.quiet]) rfl
        intro base turn
        rw [reading] at turn
        obtain ⟨rfl,⟨rest,whole⟩⟩ := turn
        refine ⟨rfl,?_⟩
        rw [← whole,List.drop_left] at ended
        rw [← whole,ended,List.append_nil]
      · cases taken
    · cases taken
  | truncate p =>
    simp only [step] at taken
    split at taken
    · next text parsed =>
      split at taken
      · next bytes rewrites =>
        cases taken
        apply holder_step here (by simp [parsed,Pc.quiet]) rfl
        intro base turn
        rw [parsed] at turn
        obtain ⟨_,rfl⟩ := turn
        exact ⟨rfl,by simpa using rewrites,rfl⟩
      · cases taken
    · cases taken
  | write p n =>
    simp only [step] at taken
    split at taken
    · next text done rest writing =>
      split at taken
      · cases taken
        apply holder_step here (by simp [writing,Pc.quiet]) rfl
        intro base turn
        rw [writing] at turn
        obtain ⟨rfl,rewrites,now⟩ := turn
        refine ⟨rfl,by simpa using rewrites,?_⟩
        rw [now,writeAt_end]
      · cases taken
    · cases taken
  | close p =>
    simp only [step] at taken
    split at taken
    · next text done rest writing =>
      split at taken
      · next all =>
        cases taken
        apply holder_step here (by simp [writing,Pc.quiet]) rfl
        intro base turn
        rw [writing,all] at turn
        obtain ⟨rfl,rewrites,now⟩ := turn
        refine ⟨rfl,?_⟩
        rw [← rewrites_apply,rewrites,now]
        simp
      · cases taken
    · cases taken
  | keep p =>
    simp only [step] at taken
    split at taken
    · next text parsed =>
      split at taken
      · next none =>
        cases taken
        apply holder_step here (by simp [parsed,Pc.quiet]) rfl
        intro base turn
        rw [parsed] at turn
        obtain ⟨now,rfl⟩ := turn
        refine ⟨rfl,?_⟩
        rw [← rewrites_apply,none,now]
        rfl
      · cases taken
    · cases taken
  | unlock p =>
    simp only [step] at taken
    split at taken
    · next text finishing =>
      cases taken
      exact unlock_serial here finishing
    · cases taken

theorem reachable_serial {s : State P} (reached : (processes q job content).Reachable s) : Serial q job content s :=
  invariant_always (I := Serial q job content) (by rintro _ rfl; exact start_serial)
    (fun _ _ _ here taken => step_serial here taken) reached

/-! ## Progress -/

/-- How far a process is from its exit. -/
def Pc.phase : Pc → Nat
  | .idle => 7
  | .opened => 6
  | .locked => 5
  | .reading _ => 4
  | .parsed _ => 3
  | .writing _ _ _ => 2
  | .finishing _ => 1
  | .exited _ => 0

/-- What is still to be written. -/
def Pc.unwritten : Pc → Nat
  | .writing _ _ rest => rest.length
  | _ => 0

/-- What is still to be read of a content. -/
def Pc.unread (content : Str) : Pc → Nat
  | .reading got => content.length-got.length
  | _ => 0

/-- A step moves one process: towards its exit, or within its writing, or within its
    reading, where the content stays. -/
def Moves (s s' : State P) : Prop :=
  ∃ p pc, s'.pc = Function.update s.pc p pc ∧
    (pc.phase < (s.pc p).phase ∨
      pc.phase = (s.pc p).phase ∧ pc.unwritten < (s.pc p).unwritten ∨
      pc.phase = (s.pc p).phase ∧ pc.unwritten = (s.pc p).unwritten ∧ s'.content = s.content ∧
        pc.unread s.content < (s.pc p).unread s.content)

theorem taken_length {text : Str} {n : Nat} (some_ : text.take n ≠ []) : 0 < n ∧ 0 < text.length := by
  cases n with
  | zero => simp at some_
  | succ n =>
    cases text with
    | nil => simp at some_
    | cons c text => simp

theorem step_moves {s s' : State P} {a : Action P} (taken : step q job s a = some s') : Moves s s' := by
  cases a with
  | openLock p =>
    simp only [step,Option.ite_none_right_eq_some,Option.some.injEq] at taken
    obtain ⟨idle,rfl⟩ := taken
    exact ⟨p,_,rfl,.inl (by rw [idle]; decide)⟩
  | flock p =>
    simp only [step,Option.ite_none_right_eq_some,Option.some.injEq] at taken
    obtain ⟨⟨opened,_⟩,rfl⟩ := taken
    exact ⟨p,_,rfl,.inl (by rw [opened]; decide)⟩
  | openRead p =>
    simp only [step,Option.ite_none_right_eq_some,Option.some.injEq] at taken
    obtain ⟨locked,rfl⟩ := taken
    exact ⟨p,_,rfl,.inl (by rw [locked]; exact Nat.le_refl 5)⟩
  | read p n =>
    simp only [step] at taken
    split at taken
    · next got reading =>
      simp only [Option.ite_none_right_eq_some,Option.some.injEq] at taken
      obtain ⟨some_,rfl⟩ := taken
      refine ⟨p,_,rfl,.inr (.inr ⟨by rw [reading]; rfl,by rw [reading]; rfl,rfl,?_⟩)⟩
      have lengths := taken_length some_
      rw [reading]
      simp only [Pc.unread,List.length_append,List.length_take,List.length_drop] at lengths ⊢
      omega
    · cases taken
  | eof p =>
    simp only [step] at taken
    split at taken
    · next got reading =>
      simp only [Option.ite_none_right_eq_some,Option.some.injEq] at taken
      obtain ⟨_,rfl⟩ := taken
      exact ⟨p,_,rfl,.inl (by rw [reading]; exact Nat.le_refl 4)⟩
    · cases taken
  | truncate p =>
    simp only [step] at taken
    split at taken
    · next text parsed =>
      split at taken
      · cases taken
        exact ⟨p,_,rfl,.inl (by rw [parsed]; exact Nat.le_refl 3)⟩
      · cases taken
    · cases taken
  | write p n =>
    simp only [step] at taken
    split at taken
    · next text done rest writing =>
      simp only [Option.ite_none_right_eq_some,Option.some.injEq] at taken
      obtain ⟨some_,rfl⟩ := taken
      refine ⟨p,_,rfl,.inr (.inl ⟨by rw [writing]; rfl,?_⟩)⟩
      have lengths := taken_length some_
      rw [writing]
      simp only [Pc.unwritten,List.length_drop]
      omega
    · cases taken
  | close p =>
    simp only [step] at taken
    split at taken
    · next text done rest writing =>
      simp only [Option.ite_none_right_eq_some,Option.some.injEq] at taken
      obtain ⟨_,rfl⟩ := taken
      exact ⟨p,_,rfl,.inl (by rw [writing]; exact Nat.le_refl 2)⟩
    · cases taken
  | keep p =>
    simp only [step] at taken
    split at taken
    · next text parsed =>
      simp only [Option.ite_none_right_eq_some,Option.some.injEq] at taken
      obtain ⟨_,rfl⟩ := taken
      exact ⟨p,_,rfl,.inl (by rw [parsed]; exact Nat.lt_of_sub_pos Nat.zero_lt_two)⟩
    · cases taken
  | unlock p =>
    simp only [step] at taken
    split at taken
    · next text finishing =>
      cases taken
      exact ⟨p,_,rfl,.inl (by rw [finishing]; exact Nat.le_refl 1)⟩
    · cases taken

/-- The distance of all processes from their exits. -/
def rank [Fintype P] (s : State P) : ℕ ×ₗ ℕ ×ₗ ℕ :=
  toLex (∑ p, (s.pc p).phase,toLex (∑ p, (s.pc p).unwritten,∑ p, (s.pc p).unread s.content))

/-- A sum over all processes after one of them has moved. -/
theorem sum_update [Fintype P] (measure : Pc → Nat) (pcs : P → Pc) (p : P) (pc : Pc) :
    (measure pc < measure (pcs p) → ∑ x, measure (Function.update pcs p pc x) < ∑ x, measure (pcs x)) ∧
      (measure pc = measure (pcs p) → ∑ x, measure (Function.update pcs p pc x) = ∑ x, measure (pcs x)) := by
  refine ⟨fun less => Finset.sum_lt_sum ?_ ⟨p,Finset.mem_univ p,?_⟩,fun same =>
    Finset.sum_congr rfl ?_⟩
  · intro x _
    by_cases here : x = p
    · subst here
      rw [Function.update_self]
      exact less.le
    · rw [Function.update_of_ne here]
  · rw [Function.update_self]
    exact less
  · intro x _
    by_cases here : x = p
    · subst here
      rw [Function.update_self,same]
    · rw [Function.update_of_ne here]

theorem step_rank [Fintype P] {s s' : State P} (moved : Moves s s') : rank s' < rank s := by
  obtain ⟨p,pc,pcs,moved⟩ := moved
  have phases := sum_update Pc.phase s.pc p pc
  have writing := sum_update Pc.unwritten s.pc p pc
  have reading := sum_update (Pc.unread s.content) s.pc p pc
  rw [rank,rank,pcs,Prod.Lex.toLex_lt_toLex,Prod.Lex.toLex_lt_toLex]
  rcases moved with less | ⟨same,less⟩ | ⟨same,also,content,less⟩
  · exact .inl (phases.1 less)
  · exact .inr ⟨phases.2 same,.inl (writing.1 less)⟩
  · rw [content]
    exact .inr ⟨phases.2 same,.inr ⟨writing.2 also,reading.1 less⟩⟩

/-- Whoever has the lock can take a step. -/
theorem holder_goes {s : State P} {p : P} (busy : ¬ (s.pc p).quiet) : ∃ a, step q job s a ≠ none := by
  cases pc : s.pc p with
  | idle => exact absurd (by rw [pc]; trivial) busy
  | opened => exact absurd (by rw [pc]; trivial) busy
  | locked => exact ⟨.openRead p,by simp [step,pc]⟩
  | reading got =>
    by_cases ended : s.content.drop got.length = []
    · exact ⟨.eof p,by simp [step,pc,ended]⟩
    · refine ⟨.read p (s.content.drop got.length).length,?_⟩
      simp only [step,pc,List.take_length]
      rw [if_pos ended]
      exact Option.some_ne_none _
  | parsed text =>
    cases rewrites : (job p).rewrites q text with
    | none => exact ⟨.keep p,by simp [step,pc,rewrites]⟩
    | some bytes => exact ⟨.truncate p,by simp [step,pc,rewrites]⟩
  | writing text done rest =>
    by_cases all : rest = []
    · exact ⟨.close p,by simp [step,pc,all]⟩
    · refine ⟨.write p rest.length,?_⟩
      simp only [step,pc,List.take_length]
      rw [if_pos all]
      exact Option.some_ne_none _
  | finishing text => exact ⟨.unlock p,by simp [step,pc]⟩
  | exited text => exact absurd (by rw [pc]; trivial) busy

/-- Where no process can take a step all have exited. -/
theorem stuck_exited {s : State P} (here : Serial q job content s) (stuck : ∀ a, step q job s a = none) (p : P) :
    ∃ text, s.pc p = .exited text := by
  have quiet : ∀ p, (s.pc p).quiet := by
    intro p
    by_contra busy
    obtain ⟨a,goes⟩ : ∃ a, step q job s a ≠ none := holder_goes busy
    exact goes (stuck a)
  have lock : s.lock = none := by
    cases held : s.lock with
    | none => rfl
    | some h =>
      obtain ⟨pre,_,turn⟩ := (here.held h held).1
      have rests := quiet h
      cases pc : s.pc h <;> rw [pc] at rests turn <;> first | exact rests.elim | exact turn.elim
  have rests := quiet p
  cases pc : s.pc p with
  | idle =>
    have first := stuck (.openLock p)
    simp [step,pc] at first
  | opened =>
    have next := stuck (.flock p)
    simp [step,pc,lock] at next
  | exited text => exact ⟨text,rfl⟩
  | _ => rw [pc] at rests; exact rests.elim

/-- Under every interleaving each process reads the content left by those that
    had the lock before it, never a part of it; and when no process is in its turn,
    the file is what all of them, one after another in the order of the lock, have
    made of it. All processes get their turn: whenever no step is left each of them has
    had it and has exited, and no run of finitely many processes goes on for ever. -/
theorem serializable (q : Qsort Step.id) (job : P → Job) (content : Str) {s : State P}
    (reached : (processes q job content).Reachable s) :
    s.order.Nodup ∧ (∀ p text, s.pc p = .exited text → p ∈ s.order) ∧
      (∀ p text, (s.pc p).seen = some text → Before q job content s.order p text) ∧
      ((∀ p, (s.pc p).quiet) → s.content = applyAll q job content s.order) ∧
      ((∀ a, step q job s a = none) → ∀ p, p ∈ s.order ∧ ∃ text, s.pc p = .exited text) ∧
      (Finite P → (processes q job content).Ends s) := by
  have here := reachable_serial reached
  have turned : ∀ p text, s.pc p = .exited text → p ∈ s.order := by
    intro p text gone
    rw [here.waiting p,gone]
    exact ⟨nofun,nofun⟩
  refine ⟨here.once,turned,fun p text seen => seen_before here seen,?_,?_,?_⟩
  · intro all
    cases lock : s.lock with
    | none => exact (here.free lock).1
    | some p =>
      obtain ⟨⟨pre,order,turn⟩,_⟩ := here.held p lock
      have quiet := all p
      cases pc : s.pc p <;> rw [pc] at quiet turn <;> first | exact quiet.elim | exact turn.elim
  · intro stuck p
    obtain ⟨text,gone⟩ := stuck_exited here stuck p
    exact ⟨turned p text gone,text,gone⟩
  · intro finite
    have := Fintype.ofFinite P
    exact ends_of_rank rank (fun _ _ _ taken => step_rank (step_moves taken)) s

end

/-- Two writers, and a reader that waits between them. -/
def sampleJob : Fin 3 → Job
  | 0 => .write [.i (.ofText "2")]
    [.ofText "name=env",.ofText "exit=0",.ofText "duration=1",.ofText "user=u",.ofText "time=1"]
  | 1 => .read [.i (.ofText "1")] [] []
  | 2 => .write [.i (.ofText "1")]
    [.ofText "name=cvs",.ofText "exit=1",.ofText "duration=2",.ofText "user=u",.ofText "time=3"]

def sampleRun : List (Action (Fin 3)) :=
  [.openLock 0,.openLock 1,.flock 0,.openLock 2,.openRead 0,.eof 0,.truncate 0,.write 0 3,
    .write 0 200,.close 0,.unlock 0,.flock 1,.openRead 1,.read 1 5,.read 1 200,.eof 1,.keep 1,.unlock 1,
    .flock 2,.openRead 2,.read 2 200,.eof 2,.truncate 2,.write 2 200,.close 2,.unlock 2]

def sampleEnd : Option (State (Fin 3)) :=
  (processes (Sorting.insertion Step.id) sampleJob []).run ⟨[],none,fun _ => .idle,[]⟩ sampleRun

/-- Both writers are in the file in the end. -/
theorem serializable_sample : ∃ s, sampleEnd = some s ∧ s.order = [0,1,2] ∧
    s.content = "step,name,exit,duration,delta,log,user,time,skip\n1,cvs,1,2,0,,u,3,0\n2,env,0,1,0,,u,1,0\n".toList ∧
      s.order.Nodup ∧ (∀ p text, s.pc p = .exited text → p ∈ s.order) ∧
      (∀ p text, (s.pc p).seen = some text → Before (Sorting.insertion Step.id) sampleJob [] s.order p text) ∧
      ((∀ p, (s.pc p).quiet) → s.content = applyAll (Sorting.insertion Step.id) sampleJob [] s.order) ∧
      ((∀ a, step (Sorting.insertion Step.id) sampleJob s a = none) → ∀ p, p ∈ s.order ∧
        ∃ text, s.pc p = .exited text) ∧
      (Finite (Fin 3) → (processes (Sorting.insertion Step.id) sampleJob []).Ends s) := by
  have ends : sampleEnd.any (fun s => decide (s.order = [0,1,2] ∧ s.content =
      "step,name,exit,duration,delta,log,user,time,skip\n1,cvs,1,2,0,,u,3,0\n2,env,0,1,0,,u,1,0\n".toList)) = true := by
    decide +kernel
  obtain ⟨s,last,reached,order,text⟩ := reachable_any (.start rfl) ends
  exact ⟨s,last,order,text,serializable _ _ _ reached⟩

end Robsd.StepLock
