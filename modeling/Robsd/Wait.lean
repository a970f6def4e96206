import Mathlib.Data.List.Dedup
import Mathlib.Data.List.Nodup
import Robsd.Decimal
import Robsd.MapEntries
import Robsd.Scheduler

/-!
`robsd-wait` (robsd-wait.c): the given processes are kept in a map, watched with
`kevent` and removed as they exit. Without `-a` it prints what the loop of the steps
expects of it (`wait_keeps`); with `-a` it is not left before all of them have exited,
and no exit gets lost on the way (`waitall_ends`).
-/
namespace Robsd.Wait
open Robsd.Strings Robsd.Decimal Robsd.Transition
open Robsd.HashMap Robsd.MapEntries
variable {P : Type} [DecidableEq P]

/-- The key of a process, the lowest byte first. -/
def pidKey (pid : Nat) : List UInt8 :=
  [UInt8.ofNat pid,UInt8.ofNat (pid/2^8),UInt8.ofNat (pid/2^16),UInt8.ofNat (pid/2^24)]

/-- `INT_MAX`. -/
def intMax : Nat := 2^31-1

/-- `parse_pids`, with the memory for each argument: whether an argument is refused,
    and the map. The program is left where there is no memory. -/
def parsePids (m : Map P Nat) : List (Str × Room P) → Option (Bool × Map P Nat)
  | [] => some (false,m)
  | (arg,room) :: args =>
    match strtonum arg 1 intMax with
    | .ok val =>
      match mapInsert m (pidKey val.toNat) val.toNat room with
      | some (some _,m) => parsePids m args
      | _ => none
    | .error _ => (parsePids m args).map fun parsed => (true,parsed.2)

/-- Enough rounds for a loop over the map. -/
def rounds (m : Map P Nat) : Nat :=
  match m.table with
  | none => 1
  | some tbl => tbl.numItems+1

/-- The processes in the order of a loop over the map. -/
def listPids (m : Map P Nat) : Option (List Nat) := do
  let els ← mapCollect m (rounds m) ⟨none,none⟩
  els.mapM fun el => (m.heap el).map Element.val

/-- `pid_count`. -/
def pidCount (m : Map P Nat) : Option Nat := (mapCollect m (rounds m) ⟨none,none⟩).map List.length

/-- What `kevent` reports: a process that is not there, another error, an exit, or
    an event the program does not know. -/
inductive Event where
  | gone (pid : Nat)
  | failed (pid : Nat)
  | exit (pid : Nat)
  | unknown (pid : Nat)
  deriving DecidableEq

/-- One round of `kqueue_handle_events`, with the error so far. -/
def handleEvent (s : Bool × Map P Nat) : Event → Option (Bool × Map P Nat)
  | .gone pid => (mapRemove s.2 (pidKey pid)).map fun m => (s.1,m)
  | .failed _ => some (true,s.2)
  | .exit pid => (mapRemove s.2 (pidKey pid)).map fun m => (s.1,m)
  | .unknown _ => some (true,s.2)

/-- `kqueue_handle_events`. -/
def kqueueHandleEvents (m : Map P Nat) (events : List Event) : Option (Bool × Map P Nat) :=
  events.foldlM handleEvent (false,m)

/-- Where the program is. -/
inductive Pc where
  | setup
  | blocked
  | stopped (code : Nat) (printed : List Nat)
  deriving DecidableEq

/-- The program with its environment: the processes that run, and those whose exit
    the kernel is to report. -/
structure State (P : Type) where
  pids : Map P Nat
  running : List Nat
  watched : List Nat
  pc : Pc

/-- The exit of a process; a failure of `kqueue`, of a call of `kevent` or of the
    memory for the events; the first call of `kevent`, which names the processes that
    may not be watched; and the return of a call with some events. -/
inductive Action where
  | exited (pid : Nat)
  | fails
  | setup (denied : List Nat)
  | deliver (events : List Event)

/-- What the program does with the events of one call. -/
def afterwards (waitall : Bool) (s : State P) (events : List Event) : Option (State P) := do
  let (error,m) ← kqueueHandleEvents s.pids events
  if error then
    return { s with pids := m, pc := .stopped 1 [] }
  let count ← pidCount m
  if waitall && decide (0 < count) then
    return { s with pids := m, pc := .blocked }
  let printed ← listPids m
  return { s with pids := m, pc := .stopped 0 printed }

/-- The events of the first call for a process. -/
def refusal (running denied : List Nat) (pid : Nat) : Option Event :=
  if pid ∉ running then some (.gone pid) else if pid ∈ denied then some (.failed pid) else none

/-- The process that an event removes. -/
def Event.removed : Event → Option Nat
  | .gone pid => some pid
  | .failed _ => none
  | .exit pid => some pid
  | .unknown _ => none

/-- Whether a call that waits may return with an event. -/
def State.reports (s : State P) : Event → Bool
  | .gone _ => false
  | .failed _ => false
  | .exit pid => pid ∈ s.watched ∧ pid ∉ s.running
  | .unknown _ => true

/-- `main` behind `parse_pids`. The first call of `kevent` returns at once where a
    process cannot be watched; a call returns with exits that were not reported yet. -/
def step (waitall : Bool) (s : State P) : Action → Option (State P)
  | .exited pid => if pid ∈ s.running then some { s with running := s.running.erase pid } else none
  | .fails =>
    match s.pc with
    | .setup | .blocked => some { s with pc := .stopped 1 [] }
    | .stopped .. => none
  | .setup denied =>
    match s.pc with
    | .setup => do
      let pids ← listPids s.pids
      let watched := (pids.filter fun pid => refusal s.running denied pid = none).dedup
      let events := pids.filterMap (refusal s.running denied)
      if events = [] then
        return { s with watched, pc := .blocked }
      afterwards waitall { s with watched } events
    | _ => none
  | .deliver events =>
    match s.pc with
    | .blocked =>
      let exits := events.filterMap Event.removed
      if events ≠ [] ∧ exits.Nodup ∧ ∀ event ∈ events, s.reports event then
        afterwards waitall { s with watched := s.watched.filter (· ∉ exits) } events
      else none
    | _ => none

/-- The processes of some entries. -/
def vals (es : List (Entry P Nat)) : List Nat := es.map Entry.val

/-- A map has some processes. -/
structure Keeps (m : Map P Nat) (pids : List Nat) : Prop where
  entries : ∃ es, Holds m es ∧ vals es = pids ∧ ∀ e ∈ es, e.key = pidKey e.val
  int : ∀ pid ∈ pids, pid ≤ intMax
  once : pids.Nodup

/-- The memory for the arguments is not in use. -/
def FreshArgs (m : Map P Nat) : List (Str × Room P) → Prop
  | [] => True
  | (arg,room) :: args => (∀ el, room.element = some el → m.heap el = none) ∧ ∀ val, strtonum arg 1 intMax = .ok val →
      ∀ out m', mapInsert m (pidKey val.toNat) val.toNat room = some (out,m') → FreshArgs m' args

/-- The program behind `parse_pids`, which has accepted its arguments. -/
def wait (waitall : Bool) (pids : List Nat) : System (State P) Action where
  start s := s.watched = [] ∧ s.pc = .setup ∧ ∃ args : List (Str × Room P), FreshArgs mapInit args ∧
    args.map (fun arg => strtonum arg.1 1 intMax) = pids.map (fun pid => .ok (pid : Int)) ∧
      parsePids mapInit args = some (false,s.pids)
  step := step waitall

theorem pidKey_inj {a b : Nat} (intA : a ≤ intMax) (intB : b ≤ intMax) (same : pidKey a = pidKey b) : a = b := by
  simp only [pidKey,List.cons.injEq,and_true,← UInt8.toNat_inj,UInt8.toNat_ofNat'] at same
  simp only [intMax] at intA intB
  omega

/-! ## The map -/

section
variable {m : Map P Nat} {es : List (Entry P Nat)} {pids : List Nat}

/-- The arguments are kept in their order. -/
theorem parsePids_holds {args : List (Str × Room P)} {m' : Map P Nat} (holds : Holds m es)
    (keys : ∀ e ∈ es, e.key = pidKey e.val) (fresh : FreshArgs m args)
    (numbers : args.map (fun arg => strtonum arg.1 1 intMax) = pids.map fun pid => .ok (pid : Int))
    (parsed : parsePids m args = some (false,m')) :
    ∃ es', Holds m' es' ∧ vals es' = vals es ++ pids ∧ ∀ e ∈ es', e.key = pidKey e.val := by
  induction args generalizing m es pids with
  | nil =>
    cases pids with
    | nil =>
      cases parsed
      exact ⟨es,holds,by simp,keys⟩
    | cons pid pids => simp at numbers
  | cons arg args ih =>
    obtain ⟨arg,room⟩ := arg
    cases pids with
    | nil => simp at numbers
    | cons pid pids =>
      simp only [List.map_cons,List.cons.injEq] at numbers
      obtain ⟨number,numbers⟩ := numbers
      obtain ⟨unused,later⟩ := fresh
      obtain ⟨out,m1,run,inserted⟩ := mapInsert_holds holds (pidKey pid) pid room unused
      have later := later pid number out m1 run
      simp only [parsePids,number,Int.toNat_natCast,run] at parsed
      rcases inserted with rfl | ⟨el,_,rfl,holds1⟩
      · cases parsed
      · obtain ⟨es',holds',same,keys'⟩ := ih holds1 (fun e member => by
          rcases List.mem_append.mp member with member | member
          · exact keys e member
          · rw [List.mem_singleton.mp member]) later numbers parsed
        exact ⟨es',holds',by rw [same]; simp [vals],keys'⟩

omit [DecidableEq P] in
theorem rounds_enough (holds : Holds m es) : es.length < rounds m := by
  cases es with
  | nil => simp [rounds,holds.freed rfl]
  | cons e es =>
    obtain ⟨tbl,there,table⟩ := holds.table (by simp)
    simp [rounds,there,table.items,places]

omit [DecidableEq P] in
theorem mapM_vals (holds : Holds m es) : (places es).mapM (fun el => (m.heap el).map Element.val) = some (vals es) := by
  have all : ∀ fs : List (Entry P Nat), (∀ e ∈ fs, e ∈ es) →
      (places fs).mapM (fun el => (m.heap el).map Element.val) = some (vals fs) := by
    intro fs
    induction fs with
    | nil => intro _; rfl
    | cons f fs ih =>
      intro inside
      obtain ⟨n,here,_,_,val⟩ := entry_live holds (inside f List.mem_cons_self)
      have rest := ih fun e member => inside e (List.mem_cons_of_mem _ member)
      simp [List.mapM_cons,here,val,rest,vals]
  exact all es fun _ member => member

omit [DecidableEq P] in
theorem listPids_keeps (keeps : Keeps m pids) : listPids m = some pids := by
  obtain ⟨es,holds,rfl,_⟩ := keeps.entries
  simp only [listPids,mapCollect_all holds (rounds_enough holds),Option.bind_eq_bind,Option.bind_some]
  exact mapM_vals holds

omit [DecidableEq P] in
theorem pidCount_keeps (keeps : Keeps m pids) : pidCount m = some pids.length := by
  obtain ⟨es,holds,rfl,_⟩ := keeps.entries
  simp [pidCount,mapCollect_all holds (rounds_enough holds),places,vals]

/-- A process is removed. -/
theorem mapRemove_keeps (keeps : Keeps m pids) {pid : Nat} (int : pid ≤ intMax) :
    ∃ m', mapRemove m (pidKey pid) = some m' ∧ Keeps m' (pids.erase pid) := by
  obtain ⟨es,holds,same,keys⟩ := keeps.entries
  obtain ⟨m',run,⟨misses,rfl⟩ | ⟨before,e,behind,rfl,key,holds'⟩⟩ := mapRemove_holds holds (pidKey pid)
  · have absent : pid ∉ pids := by
      intro member
      obtain ⟨e,inside,rfl⟩ := List.mem_map.mp (same.symm ▸ member)
      exact misses e inside (keys e inside)
    refine ⟨m',run,?_⟩
    rw [List.erase_of_not_mem absent]
    exact keeps
  · have val : e.val = pid := by
      refine pidKey_inj (keeps.int _ ?_) int ((keys e (by simp)).symm.trans key)
      rw [← same]
      simp [vals]
    have split : pids = vals before ++ pid :: vals behind := by rw [← same,← val]; simp [vals]
    have absent : pid ∉ vals before := by
      intro member
      have once := split ▸ keeps.once
      exact (List.nodup_append.mp once).2.2 pid member pid List.mem_cons_self rfl
    have erased : pids.erase pid = vals before ++ vals behind := by
      rw [split,List.erase_append_right _ absent,List.erase_cons_head]
    refine ⟨m',run,⟨before ++ behind,holds',by rw [erased]; simp [vals],fun e' member => keys e' ?_⟩,fun p member =>
      keeps.int p (List.mem_of_mem_erase member),keeps.once.erase pid⟩
    rcases List.mem_append.mp member with member | member
    · exact List.mem_append_left _ member
    · exact List.mem_append_right _ (List.mem_cons_of_mem _ member)

end

/-! ## Events -/

/-- Whether an event is an error of the program. -/
def Event.isFailed : Event → Bool
  | .failed _ => true
  | .unknown _ => true
  | _ => false

section
variable {m : Map P Nat} {pids left : List Nat}

theorem handleEvents_keeps {events : List Event} (keeps : Keeps m left)
    (int : ∀ event ∈ events, ∀ pid, event.removed = some pid → pid ≤ intMax) (error : Bool) :
    ∃ m', events.foldlM handleEvent (error,m) = some (error || events.any Event.isFailed,m') ∧
      Keeps m' (left.diff (events.filterMap Event.removed)) := by
  induction events generalizing m left error with
  | nil => exact ⟨m,by simp,keeps⟩
  | cons event events ih =>
    have later : ∀ e ∈ events, ∀ pid, e.removed = some pid → pid ≤ intMax := fun e member =>
      int e (List.mem_cons_of_mem _ member)
    have here := int event List.mem_cons_self
    cases event with
    | failed pid =>
      obtain ⟨m',run,keeps'⟩ := ih keeps later true
      refine ⟨m',?_,keeps'⟩
      simpa [List.foldlM_cons,handleEvent,Event.isFailed] using run
    | unknown pid =>
      obtain ⟨m',run,keeps'⟩ := ih keeps later true
      refine ⟨m',?_,keeps'⟩
      simpa [List.foldlM_cons,handleEvent,Event.isFailed] using run
    | gone pid =>
      obtain ⟨m1,removed,keeps1⟩ := mapRemove_keeps keeps (here pid rfl)
      obtain ⟨m',run,keeps'⟩ := ih keeps1 later error
      refine ⟨m',?_,by simpa [Event.removed] using keeps'⟩
      simpa [List.foldlM_cons,handleEvent,removed,Event.isFailed] using run
    | exit pid =>
      obtain ⟨m1,removed,keeps1⟩ := mapRemove_keeps keeps (here pid rfl)
      obtain ⟨m',run,keeps'⟩ := ih keeps1 later error
      refine ⟨m',?_,by simpa [Event.removed] using keeps'⟩
      simpa [List.foldlM_cons,handleEvent,removed,Event.isFailed] using run

/-- What the program does with the events of a call, for the processes that they
    leave. -/
theorem afterwards_keeps (waitall : Bool) (s : State P) (events : List Event) (keeps : Keeps s.pids left)
    (int : ∀ event ∈ events, ∀ pid, event.removed = some pid → pid ≤ intMax) :
    ∃ s', afterwards waitall s events = some s' ∧ s'.running = s.running ∧ s'.watched = s.watched ∧
      Keeps s'.pids (left.diff (events.filterMap Event.removed)) ∧
      s'.pc = if events.any Event.isFailed then .stopped 1 []
        else if waitall = true ∧ left.diff (events.filterMap Event.removed) ≠ [] then .blocked
        else .stopped 0 (left.diff (events.filterMap Event.removed)) := by
  obtain ⟨m',run,keeps'⟩ := handleEvents_keeps keeps int false
  rw [Bool.false_or] at run
  cases failed : events.any Event.isFailed with
  | true =>
    rw [failed] at run
    exact ⟨{ s with pids := m', pc := .stopped 1 [] },by simp [afterwards,kqueueHandleEvents,run],rfl,rfl,keeps',rfl⟩
  | false =>
    rw [failed] at run
    by_cases more : waitall = true ∧ left.diff (events.filterMap Event.removed) ≠ []
    · refine ⟨{ s with pids := m', pc := .blocked },?_,rfl,rfl,keeps',by simp [more]⟩
      simp [afterwards,kqueueHandleEvents,run,pidCount_keeps keeps',more.1,List.length_pos_iff.mpr more.2]
    · refine ⟨{ s with pids := m', pc := .stopped 0 (left.diff (events.filterMap Event.removed)) },?_,rfl,rfl,
        keeps',by simp [more]⟩
      have stop : (waitall && decide (0 < (left.diff (events.filterMap Event.removed)).length)) = false := by
        rw [Bool.and_eq_false_iff]
        by_cases wait : waitall = true
        · refine .inr (decide_eq_false ?_)
          have none := not_not.mp fun some_ => more ⟨wait,some_⟩
          simp [none]
        · exact .inl (Bool.not_eq_true _ ▸ wait)
      simp only [afterwards,kqueueHandleEvents,run,pidCount_keeps keeps',listPids_keeps keeps',stop,Option.bind_eq_bind,
        Option.bind_some]
      rfl

end

/-! ## Runs -/

/-- What holds at every place of the program: no process that runs is missing from the
    map, and while the program is blocked exactly the processes of the map are watched. -/
structure Waits (waitall : Bool) (pids : List Nat) (s : State P) (left : List Nat) : Prop where
  keeps : Keeps s.pids left
  sub : left.Sublist pids
  running : ∀ p ∈ pids, p ∈ s.running → p ∈ left
  setup : s.pc = .setup → left = pids ∧ s.watched = []
  blocked : s.pc = .blocked → s.watched.Nodup ∧ (∀ p, p ∈ s.watched ↔ p ∈ left) ∧ left ≠ [] ∧
    (waitall = false → left = pids)
  stopped : ∀ out, s.pc = .stopped 0 out → out = left ∧ (if waitall then left = [] else ∃ p ∈ pids, p ∉ left)
  failed : ∀ code out, s.pc = .stopped code out → code = 0 ∨ code = 1 ∧ out = []

section
variable {waitall : Bool} {pids left : List Nat} {s s' : State P}

theorem start_waits (once : pids.Nodup) (start : (wait waitall pids).start s) : Waits waitall pids s pids := by
  obtain ⟨watched,pc,args,fresh,numbers,parsed⟩ := start
  have int : ∀ pid ∈ pids, pid ≤ intMax := by
    intro pid member
    have accepted := List.mem_map_of_mem (f := fun pid : Nat => (.ok pid : Except Decimal.Error Int)) member
    rw [← numbers] at accepted
    obtain ⟨arg,_,accepted⟩ := List.mem_map.mp accepted
    exact_mod_cast (strtonum_bounds accepted).2
  obtain ⟨es,holds,same,keys⟩ := parsePids_holds mapInit_holds (by simp) fresh numbers parsed
  refine ⟨⟨⟨es,holds,by simpa [vals] using same,keys⟩,int,once⟩,.refl _,fun _ member _ => member,fun _ =>
    ⟨rfl,watched⟩,?_,?_,?_⟩
  · intro blocked
    rw [pc] at blocked
    cases blocked
  · intro out stopped
    rw [pc] at stopped
    cases stopped
  · intro code out stopped
    rw [pc] at stopped
    cases stopped

/-- What is left after events of processes that do not run. -/
theorem afterwards_waits {events : List Event} (keeps : Keeps s.pids left) (sub : left.Sublist pids)
    (running : ∀ p ∈ pids, p ∈ s.running → p ∈ left)
    (some_ : events.any Event.isFailed = false → ∃ p ∈ left, p ∈ events.filterMap Event.removed)
    (gone : ∀ event ∈ events, ∀ pid, event.removed = some pid → pid ∈ left ∧ pid ∉ s.running)
    (distinct : s.watched.Nodup)
    (watched : events.any Event.isFailed = false → ∀ p, p ∈ s.watched ↔ p ∈ left ∧ p ∉ events.filterMap Event.removed)
    (taken : afterwards waitall s events = some s') :
    Waits waitall pids s' (left.diff (events.filterMap Event.removed)) := by
  obtain ⟨s1,run,running1,watched1,keeps1,pc⟩ := afterwards_keeps waitall s events keeps
    fun event member pid is => keeps.int pid (gone event member pid is).1
  rw [run] at taken
  cases taken
  have onceLeft : left.Nodup := keeps.once
  have mem : ∀ p, p ∈ left.diff (events.filterMap Event.removed) ↔ p ∈ left ∧ p ∉ events.filterMap Event.removed :=
    fun p => List.Nodup.mem_sdiff_iff onceLeft
  refine ⟨keeps1,(List.diff_sublist _ _).trans sub,?_,?_,?_,
    ?_,?_⟩
  · intro p member runs
    rw [running1] at runs
    refine (mem p).mpr ⟨running p member runs,?_⟩
    intro removed
    obtain ⟨event,inside,is⟩ := List.mem_filterMap.mp removed
    exact (gone event inside p is).2 runs
  · intro setup
    rw [pc] at setup
    split_ifs at setup
  · intro blocked
    rw [pc] at blocked
    split_ifs at blocked with failed more
    rw [watched1]
    refine ⟨distinct,?_,more.2,?_⟩
    · intro p
      rw [mem,watched (by simpa using failed) p]
    · intro one
      rw [one] at more
      cases more.1
  · intro out stopped
    rw [pc] at stopped
    split_ifs at stopped with failed more
    · cases stopped
    · cases stopped
      refine ⟨rfl,?_⟩
      cases waitall with
      | true =>
        by_contra other
        exact more ⟨rfl,by simpa using other⟩
      | false =>
        obtain ⟨p,member,removed⟩ := some_ (by simpa using failed)
        exact ⟨p,sub.subset member,fun kept => ((mem p).mp kept).2 removed⟩
  · intro code out stopped
    rw [pc] at stopped
    split_ifs at stopped with failed more <;> cases stopped
    · exact .inr ⟨rfl,rfl⟩
    · exact .inl rfl

theorem step_waits {a : Action} (given : pids ≠ []) (here : Waits waitall pids s left)
    (taken : step waitall s a = some s') :
    ∃ left', Waits waitall pids s' left' := by
  cases a with
  | exited pid =>
    simp only [step,Option.ite_none_right_eq_some,Option.some.injEq] at taken
    obtain ⟨_,rfl⟩ := taken
    exact ⟨left,here.keeps,here.sub,fun p member runs => here.running p member (List.mem_of_mem_erase runs),
      here.setup,here.blocked,here.stopped,here.failed⟩
  | fails =>
    have stop : s' = { s with pc := .stopped 1 [] } := by
      simp only [step] at taken
      split at taken <;> simp_all
    refine ⟨left,?_⟩
    rw [stop]
    refine ⟨here.keeps,here.sub,here.running,fun other => ?_,fun other => ?_,fun _ other => ?_,fun _ _ other =>
      .inr ?_⟩ <;> cases other
    exact ⟨rfl,rfl⟩
  | setup denied =>
    simp only [step] at taken
    split at taken
    · next pc =>
      obtain ⟨rfl,_⟩ := here.setup pc
      simp only [listPids_keeps here.keeps,Option.bind_eq_bind,Option.bind_some] at taken
      have distinct : ((left.filter fun pid => refusal s.running denied pid = none).dedup).Nodup := List.nodup_dedup _
      have refused : ∀ p, refusal s.running denied p = none ↔ p ∈ s.running ∧ p ∉ denied := by
        intro p
        unfold refusal
        split_ifs with gone other <;> simp_all
      have gone : ∀ p, p ∈ (left.filterMap (refusal s.running denied)).filterMap Event.removed ↔
        p ∈ left ∧ p ∉ s.running := by
        intro p
        have one : ∀ q, (refusal s.running denied q).bind Event.removed = some p ↔ q = p ∧ p ∉ s.running := by
          intro q
          unfold refusal
          split_ifs with out other
          · exact ⟨(fun impossible => by cases impossible),fun is => absurd (is.1 ▸ out) is.2⟩
          · exact ⟨(fun impossible => by cases impossible),fun is => absurd (is.1 ▸ out) is.2⟩
          · simp only [Option.bind_some,Event.removed,Option.some.injEq]
            exact ⟨fun is => ⟨is,is ▸ out⟩,And.left⟩
        rw [List.filterMap_filterMap,List.mem_filterMap]
        constructor
        · rintro ⟨q,member,is⟩
          obtain ⟨rfl,out⟩ := (one q).mp is
          exact ⟨member,out⟩
        · rintro ⟨member,out⟩
          exact ⟨p,member,(one p).mpr ⟨rfl,out⟩⟩
      split_ifs at taken with silent
      · cases taken
        have all : ∀ p, p ∈ (left.filter fun pid => refusal s.running denied pid = none).dedup ↔ p ∈ left := by
          intro p
          rw [List.mem_dedup,List.mem_filter]
          apply and_iff_left_of_imp
          intro member
          simpa using List.filterMap_eq_nil_iff.mp silent p member
        refine ⟨left,here.keeps,here.sub,here.running,fun impossible => ?_,fun _ => ⟨distinct,all,given,fun _ => rfl⟩,
          fun _ impossible => ?_,fun _ _ impossible => ?_⟩ <;> cases impossible
      · refine ⟨_,afterwards_waits
          (s := { s with watched := (left.filter fun pid => refusal s.running denied pid = none).dedup })
          here.keeps here.sub here.running ?_
          (fun event member pid is => (gone pid).mp (List.mem_filterMap.mpr ⟨event,member,is⟩)) distinct
            ?_ taken⟩
        · intro nofail
          obtain ⟨event,member⟩ := List.exists_mem_of_ne_nil _ silent
          obtain ⟨p,inside,is⟩ := List.mem_filterMap.mp member
          refine ⟨p,inside,(gone p).mpr ⟨inside,?_⟩⟩
          intro runs
          have failed : event.isFailed = true := by
            unfold refusal at is
            rw [if_neg (not_not.mpr runs)] at is
            split_ifs at is
            cases is
            rfl
          rw [List.any_eq_true.mpr ⟨event,member,failed⟩] at nofail
          cases nofail
        · intro nofail p
          rw [List.mem_dedup,List.mem_filter,gone]
          constructor
          · rintro ⟨member,free⟩
            exact ⟨member,fun both => both.2 ((refused p).mp (by simpa using free)).1⟩
          · rintro ⟨member,kept⟩
            have runs : p ∈ s.running := by
              by_contra out
              exact kept ⟨member,out⟩
            have allowed : p ∉ denied := by
              intro other
              have event : Event.failed p ∈ left.filterMap (refusal s.running denied) :=
                List.mem_filterMap.mpr ⟨p,member,by simp [refusal,runs,other]⟩
              have failed := List.any_eq_true.mpr ⟨_,event,(rfl : Event.isFailed (.failed p) = true)⟩
              rw [nofail] at failed
              cases failed
            exact ⟨member,by simpa using (refused p).mpr ⟨runs,allowed⟩⟩
    · cases taken
  | deliver events =>
    simp only [step] at taken
    split at taken
    · next pc =>
      simp only [Option.ite_none_right_eq_some] at taken
      obtain ⟨⟨some_,_,reported⟩,taken⟩ := taken
      obtain ⟨onceW,watched,_,_⟩ := here.blocked pc
      have exit : ∀ event ∈ events, ∀ p, event.removed = some p → p ∈ left ∧ p ∉ s.running := by
        intro event member p is
        have seen := reported event member
        cases event with
        | exit pid =>
          cases is
          obtain ⟨known,out⟩ := of_decide_eq_true seen
          exact ⟨(watched p).mp known,out⟩
        | gone pid => cases seen
        | failed pid => cases is
        | unknown pid => cases is
      refine ⟨_,afterwards_waits (s := { s with watched := s.watched.filter (· ∉ events.filterMap Event.removed) })
        here.keeps here.sub here.running ?_ exit (onceW.filter _) ?_ taken⟩
      · intro nofail
        obtain ⟨event,member⟩ := List.exists_mem_of_ne_nil events some_
        have removes : ∃ p, event.removed = some p := by
          have noFailure := List.any_eq_false.mp nofail event member
          cases event <;> simp_all [Event.isFailed,Event.removed]
        obtain ⟨p,is⟩ := removes
        exact ⟨p,(exit event member p is).1,List.mem_filterMap.mpr ⟨event,member,is⟩⟩
      · intro _ p
        rw [List.mem_filter,watched p]
        simp
    · cases taken

theorem reached_waits (once : pids.Nodup) (given : pids ≠ [])
    (reached : (wait waitall pids).Reachable s) : ∃ left, Waits waitall pids s left :=
  invariant_always (S := wait waitall pids) (I := fun s => ∃ left, Waits waitall pids s left)
    (fun _ start => ⟨pids,start_waits once start⟩) (fun _ _ _ ⟨_,here⟩ taken => step_waits given here taken) reached

/-- Once the exits of all processes that are still watched are reported the program
    is left. -/
theorem deliver_all (here : Waits waitall pids s left) (blocked : s.pc = .blocked) (gone : ∀ p ∈ left, p ∉ s.running) :
    ∃ s', step waitall s (.deliver (s.watched.map .exit)) = some s' ∧ s'.pc = .stopped 0 [] := by
  obtain ⟨distinct,watched,some_,_⟩ := here.blocked blocked
  have removed : (s.watched.map Event.exit).filterMap Event.removed = s.watched := by
    rw [List.filterMap_map]
    exact List.filterMap_some
  obtain ⟨s',run,_,_,_,pc⟩ := afterwards_keeps waitall { s with watched := s.watched.filter (· ∉ s.watched) }
    (s.watched.map .exit) here.keeps fun event member pid is => by
      obtain ⟨p,inside,rfl⟩ := List.mem_map.mp member
      cases is
      exact here.keeps.int _ ((watched _).mp inside)
  have none : left.diff s.watched = [] := by
    rw [List.eq_nil_iff_forall_not_mem]
    intro p member
    obtain ⟨inside,out⟩ := (List.Nodup.mem_sdiff_iff here.keeps.once).mp member
    exact out ((watched p).mpr inside)
  have nofail : (s.watched.map Event.exit).any Event.isFailed = false := by simp [Event.isFailed]
  refine ⟨s',?_,?_⟩
  · have ready : s.watched.map Event.exit ≠ [] ∧ ((s.watched.map Event.exit).filterMap Event.removed).Nodup ∧
        ∀ event ∈ s.watched.map Event.exit, s.reports event := by
      rw [removed]
      refine ⟨?_,distinct,?_⟩
      · obtain ⟨p,member⟩ := List.exists_mem_of_ne_nil left some_
        exact List.ne_nil_of_mem (List.mem_map_of_mem ((watched p).mpr member))
      · intro event member
        obtain ⟨p,known,rfl⟩ := List.mem_map.mp member
        exact decide_eq_true ⟨known,gone p ((watched p).mp known)⟩
    simp only [step,blocked]
    rw [if_pos ready,removed]
    exact run
  · rw [pc,removed,none,nofail]
    simp

/-- Without `-a` the program prints, in their order, processes among which are all
    that still run and not all that were given, which is what the loop of the steps
    relies on; it prints nothing where it fails; and it does not stay blocked once a
    process has exited. -/
theorem wait_keeps (once : pids.Nodup) (given : pids ≠ []) (reached : (wait false pids).Reachable s) :
    (∀ out, s.pc = .stopped 0 out → out.Sublist pids ∧ ∀ loop : Scheduler.State, loop.jobs = pids →
      loop.running ⊆ s.running → Scheduler.Waited loop out) ∧
    (∀ code out, s.pc = .stopped code out → code = 0 ∨ code = 1 ∧ out = []) ∧
    (s.pc = .blocked → ∀ p ∈ pids, p ∉ s.running → (step false s (.deliver [.exit p])).isSome) := by
  obtain ⟨left,here⟩ := reached_waits once given reached
  refine ⟨?_,here.failed,?_⟩
  · intro out stopped
    obtain ⟨rfl,missing⟩ := here.stopped out stopped
    refine ⟨here.sub,?_⟩
    intro loop jobs runs
    rw [Scheduler.Waited,jobs]
    exact ⟨here.keeps.once,fun p inside => here.sub.subset inside,fun p inside also =>
      here.running p inside (runs also),by simpa using missing⟩
  · intro blocked p member gone
    obtain ⟨_,watched,_,all⟩ := here.blocked blocked
    have known : p ∈ s.watched := (watched p).mpr (all rfl ▸ member)
    obtain ⟨s',run,_⟩ := afterwards_keeps false
      { s with watched := s.watched.filter (· ∉ [Event.exit p].filterMap Event.removed) }
      [.exit p] here.keeps fun event inside pid is => by
        rw [List.mem_singleton.mp inside] at is
        cases is
        exact here.keeps.int p (all rfl ▸ member)
    have ready : [Event.exit p] ≠ [] ∧ ([Event.exit p].filterMap Event.removed).Nodup ∧ ∀ event ∈ [Event.exit p],
      s.reports event := by
      refine ⟨by simp,List.nodup_singleton p,?_⟩
      intro event there
      rw [List.mem_singleton.mp there]
      exact decide_eq_true ⟨known,gone⟩
    have taken : step false s (.deliver [.exit p]) = some s' := by
      simp only [step,blocked]
      rw [if_pos ready]
      exact run
    rw [taken]
    rfl

/-- Two processes, with the memory for them. -/
def twoArgs : List (Str × Room Nat) := [(decimal 5,⟨some 0,true,true⟩),(decimal 7,⟨some 1,true,true⟩)]

/-- The map of them. -/
def twoPids : Map Nat Nat :=
  ((mapInsert mapInit (pidKey 5) 5 ⟨some 0,true,true⟩).bind fun inserted =>
    mapInsert inserted.2 (pidKey 7) 7 ⟨some 1,true,true⟩).elim mapInit Prod.snd

theorem two_start (waitall : Bool) : (wait waitall [5,7]).start ⟨twoPids,[5,7],[],.setup⟩ := by
  have five : strtonum (decimal 5) 1 intMax = .ok 5 := strtonum_decimal (by decide) (by decide)
  have seven : strtonum (decimal 7) 1 intMax = .ok 7 := strtonum_decimal (by decide) (by decide)
  have parsed : parsePids mapInit twoArgs = some (false,twoPids) := by
    simp only [twoArgs,parsePids,five,seven]
    rfl
  refine ⟨rfl,rfl,twoArgs,⟨fun _ _ => rfl,fun val number out m' run => ⟨?_,fun _ _ _ _ _ => trivial⟩⟩,?_,parsed⟩
  · rw [five] at number
    cases number
    rintro _ ⟨⟩
    have heap := congrArg (fun inserted => inserted.map fun result => result.2.heap 1) run
    exact (Option.some.inj heap).symm
  · simp [twoArgs,five,seven]

/-- A run for the two processes. -/
theorem two_reached (waitall : Bool) (as : List Action) (pc : Pc)
    (ran : ((wait waitall [5,7]).run ⟨twoPids,[5,7],[],.setup⟩ as).map State.pc = some pc) :
    ∃ s : State Nat, (wait waitall [5,7]).Reachable s ∧ s.pc = pc :=
  reachable_map (.start (two_start waitall)) ran

/-- The second one exits, and the first one is printed. -/
theorem wait_keeps_exited : ∃ s : State Nat, (wait false [5,7]).Reachable s ∧ s.pc = .stopped 0 [5] ∧
    (∀ out, s.pc = .stopped 0 out → out.Sublist [5,7] ∧ ∀ loop : Scheduler.State, loop.jobs = [5,7] →
      loop.running ⊆ s.running → Scheduler.Waited loop out) ∧
    (∀ code out, s.pc = .stopped code out → code = 0 ∨ code = 1 ∧ out = []) ∧
    (s.pc = .blocked → ∀ p ∈ [5,7], p ∉ s.running → (step false s (.deliver [.exit p])).isSome) := by
  obtain ⟨s,reached,pc⟩ := two_reached false [.setup [],.exited 7,.deliver [.exit 7]]
    (.stopped 0 [5]) (by decide +kernel)
  exact ⟨s,reached,pc,wait_keeps (by decide) (by decide) reached⟩

/-- With `-a` the program is left when all processes have exited, printing nothing,
    and then it can be left: no exit is lost, in whatever order and number they are
    reported. -/
theorem waitall_ends (once : pids.Nodup) (given : pids ≠ []) (reached : (wait true pids).Reachable s) :
    (∀ out, s.pc = .stopped 0 out → out = [] ∧ ∀ p ∈ pids, p ∉ s.running) ∧
    (∀ code out, s.pc = .stopped code out → code = 0 ∨ code = 1 ∧ out = []) ∧
    (s.pc = .blocked → (∀ p ∈ pids, p ∉ s.running) →
      ∃ s', step true s (.deliver (s.watched.map .exit)) = some s' ∧ s'.pc = .stopped 0 []) := by
  obtain ⟨left,here⟩ := reached_waits once given reached
  refine ⟨?_,here.failed,fun blocked gone => deliver_all here blocked fun p member =>
    gone p (here.sub.subset member)⟩
  intro out stopped
  obtain ⟨rfl,none⟩ := here.stopped out stopped
  simp only [↓reduceIte] at none
  refine ⟨none,?_⟩
  intro p member runs
  have := here.running p member runs
  rw [none] at this
  cases this

/-- The second one exits, which is reported, and then the first one. -/
theorem waitall_ends_exited : ∃ s : State Nat, (wait true [5,7]).Reachable s ∧ s.pc = .stopped 0 [] ∧
    (∀ out, s.pc = .stopped 0 out → out = [] ∧ ∀ p ∈ [5,7], p ∉ s.running) ∧
    (∀ code out, s.pc = .stopped code out → code = 0 ∨ code = 1 ∧ out = []) ∧
    (s.pc = .blocked → (∀ p ∈ [5,7], p ∉ s.running) →
      ∃ s', step true s (.deliver (s.watched.map .exit)) = some s' ∧ s'.pc = .stopped 0 []) := by
  obtain ⟨s,reached,pc⟩ := two_reached true [.setup [],.exited 7,.deliver [.exit 7],.exited 5,.deliver [.exit 5]]
    (.stopped 0 []) (by decide +kernel)
  exact ⟨s,reached,pc,waitall_ends (by decide) (by decide) reached⟩

end
end Robsd.Wait
