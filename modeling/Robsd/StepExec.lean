import Mathlib.Tactic.SplitIfs
import Robsd.Transition

/-!
The supervision of a step (step-exec.c): `step_exec` forks, waits on a pipe until the
child has made a process group, waits for the child, and signals the group when it is
itself signalled or the time is over. The child, the signals and the supervisor take
their steps in any order. What is returned (`step_exec_returns`), when the group is
signalled (`step_exec_signals`) and that the supervisor gets on (`step_exec_progress`)
hold in all of them.
-/
namespace Robsd.StepExec
open Robsd.Transition

/-- How a process has ended. -/
inductive Ending where
  | exited (code : UInt8)
  | signaled (signo : { n : Nat // 0 < n ∧ n < 127 }) (core : Bool)
  deriving DecidableEq

/-- What `waitpid` stores. -/
def Ending.status : Ending → Nat
  | .exited code => code.toNat*256
  | .signaled signo core => signo.val+if core then 128 else 0

def wifexited (status : Nat) : Bool := status%128 = 0

def wexitstatus (status : Nat) : Nat := status/256%256

def wifsignaled (status : Nat) : Bool := status%128 ≠ 127 && status%128 ≠ 0

def wtermsig (status : Nat) : Nat := status%128

inductive Signal where
  | term
  | alrm
  | kill
  deriving DecidableEq

/-- `EX_TIMEOUT`. -/
def exTimeout : Nat := 124

def exitstatus (status : Nat) (signal : Option Signal) : Nat :=
  if signal = some .alrm then exTimeout
  else if wifexited status then wexitstatus status
  else if wifsignaled status then 128+wtermsig status
  else 1

/-- Where the child is: behind `fork`, behind `setsid`, and behind `close`, where it
    executes the command. -/
inductive Child where
  | forked
  | session
  | closed
  deriving DecidableEq

/-- Where the supervisor is, behind `fork`. -/
inductive Pc where
  /-- The handlers are not installed. -/
  | install
  | close
  /-- The loop of `waiteof`. -/
  | waiteof (timoms : Int)
  /-- `waitpid` behind a failed `waiteof`. -/
  | failure
  | failureBlocked
  | timeout
  /-- `waitpid` of `step_exec`. -/
  | wait
  | waitBlocked
  | caught
  /-- `killwaitpg1`. -/
  | kill (signo : Signal)
  | poll (signo : Signal) (timoms : Int)
  | status
  | returned (error : Nat)
  /-- Left by `err`. -/
  | aborted
  /-- Ended by a signal that is not caught. -/
  | terminated
  deriving DecidableEq

/-- The supervisor and its child. The status is not initialised at first, and the naps
    are the calls of `usleep` in `waiteof` and while the group is being killed. -/
structure State where
  child : Child
  group : Bool
  childPipe : Bool
  ended : Option Ending
  reaped : Bool
  pc : Pc
  pipe : Bool
  catchesTerm : Bool
  catchesAlarm : Bool
  gotsig : Option Signal
  status : Option Nat
  sent : List Signal
  eofNaps : Nat
  naps : Nat
  printed : Bool

/-- What the configuration and the arguments of `step_exec` say. -/
structure Settings where
  regress : Bool
  regressTimeout : Int
  backdoor : Bool

def stepTimeout (c : Settings) : Int := if c.regress then c.regressTimeout else 0

/-- The state behind `fork`, where both hold the pipe. -/
def forked : State where
  child := .forked
  group := false
  childPipe := true
  ended := none
  reaped := false
  pc := .install
  pipe := true
  catchesTerm := false
  catchesAlarm := false
  gotsig := none
  status := none
  sent := []
  eofNaps := 0
  naps := 0
  printed := false

/-- A step of the supervisor; `setsid` and `close` of the child; its end, which closes
    the pipe, too; and a signal to the supervisor. -/
inductive Action where
  | go
  | setsid
  | close
  | ends (ending : Ending)
  | signal (signo : Signal)

/-- The child is reaped by a `waitpid`. -/
def reap (s : State) (ending : Ending) (pc : Pc) : State := { s with reaped := true, status := some ending.status, pc }

/-- The child is reaped by `step_fork`, which fails. -/
def failed (s : State) (ending : Ending) : State :=
  let error := exitstatus ending.status none
  { s with reaped := true, pc := .returned (if error = 0 then 1 else error) }

/-- How far `killwaitpg` is when `killwaitpg1` returns 1. -/
def gaveUp (s : State) : Signal → State
  | .kill => { s with status := some 1, pc := .status }
  | _ => { s with pc := .kill .kill }

/-- The `usleep` of `killwaitpg1`. -/
def nap (s : State) (signo : Signal) (timoms : Int) : State := { s with naps := s.naps+1, pc := .poll signo timoms }

/-- A step of the supervisor, none where it is blocked or has ended. -/
def go (c : Settings) (s : State) : Option State :=
  match s.pc with
  | .install => some { s with catchesTerm := true, pc := .close }
  | .close => some { s with pipe := false, pc := .waiteof 1000 }
  | .waiteof timoms =>
    if s.pipe ∨ s.childPipe then
      -- EAGAIN, as nothing is ever written
      let timoms := timoms-1
      some { s with eofNaps := s.eofNaps+1, pc := if timoms ≤ 0 then .failure else .waiteof timoms }
    else some { s with pc := .timeout }
  | .failure | .failureBlocked =>
    match s.ended with
    | some ending => some (failed s ending)
    | none => if s.pc = .failure then some { s with pc := .failureBlocked } else none
  | .timeout => some { s with catchesAlarm := s.catchesAlarm || decide (0 < stepTimeout c), pc := .wait }
  | .wait =>
    if c.backdoor then some { s with gotsig := some .alrm, pc := .caught }
    -- without a process group there is nothing to wait for
    else if s.group ∧ ¬ s.reaped then some { s with pc := .waitBlocked }
    else some { s with pc := .caught }
  | .waitBlocked => s.ended.map fun ending => reap s ending .status
  | .caught => some { s with pc := if s.gotsig = none then .aborted else .kill .term }
  | .kill signo =>
    if s.group ∧ ¬ s.reaped then some { s with sent := s.sent ++ [signo], pc := .poll signo 5000 }
    else some { s with pc := .aborted }
  | .poll signo timoms =>
    if s.group ∧ ¬ s.reaped then
      match s.ended with
      | some ending => some (reap s ending .status)
      | none =>
        let s := nap s signo (timoms-100)
        if timoms-100 ≤ 0 then some (gaveUp s signo) else some s
    else some (gaveUp s signo)
  | .status =>
    s.status.map fun status =>
      let error := exitstatus status s.gotsig
      { s with printed := s.printed || decide (error = exTimeout ∧ c.regress), pc := .returned error }
  | .returned _ | .aborted | .terminated => none

/-- Whether the supervisor is still there. -/
def Pc.running : Pc → Bool
  | .returned _ | .aborted | .terminated => false
  | _ => true

/-- Whether there is a handler for a signal. -/
def State.catches (s : State) : Signal → Bool
  | .term => s.catchesTerm
  | .alrm => s.catchesAlarm
  | .kill => false

/-- Where the supervisor goes on behind an interrupted `waitpid`. -/
def Pc.interrupted : Pc → Pc
  | .failureBlocked => .returned 1
  | .waitBlocked => .caught
  | pc => pc

/-- A signal to the supervisor. It interrupts a `waitpid`, as the handlers are installed
    without `SA_RESTART`. -/
def caughtSignal (s : State) (signo : Signal) : Option State :=
  if s.pc.running then
    if s.catches signo then
      some { s with gotsig := some signo, pc := s.pc.interrupted }
    else some { s with pc := .terminated }
  else none

def step (c : Settings) (s : State) : Action → Option State
  | .go => go c s
  | .setsid => if s.child = .forked ∧ s.ended = none then some { s with child := .session, group := true } else none
  | .close => if s.child = .session ∧ s.ended = none then some { s with child := .closed, childPipe := false } else none
  | .ends ending => if s.ended = none then some { s with ended := some ending, childPipe := false } else none
  | .signal signo => caughtSignal s signo

/-- `step_exec` behind `fork`. -/
def stepExec (c : Settings) : System State Action := ⟨(· = forked),step c⟩

/-! ## Exit codes -/

/-- The exit code of a process, as a shell has it. -/
def Ending.code : Ending → Nat
  | .exited code => code.toNat
  | .signaled signo _ => 128+signo.val

theorem exitstatus_status (ending : Ending) {signal : Option Signal} (other : signal ≠ some .alrm) :
    exitstatus ending.status signal = ending.code := by
  rw [exitstatus,if_neg other]
  cases ending with
  | exited code =>
    have below := code.toNat_lt
    have low : code.toNat*256%128 = 0 := by omega
    simp [Ending.status,Ending.code,wifexited,wexitstatus,low]
  | signaled signo core =>
    obtain ⟨signo,positive,below⟩ := signo
    have low : (signo+if core then 128 else 0)%128 = signo := by split_ifs <;> omega
    have first : signo ≠ 0 := by omega
    have last : signo ≠ 127 := by omega
    simp [Ending.status,Ending.code,wifexited,wifsignaled,wtermsig,low,first,last]

/-! ## What holds at every place -/

/-- The status is that of the child, or the one for a group that is not killed. -/
def Waited (s : State) : Prop :=
  (∃ ending, s.ended = some ending ∧ s.reaped = true ∧ s.status = some ending.status) ∨
    s.reaped = false ∧ s.sent = [.term,.kill] ∧ s.naps = 100 ∧ s.status = some 1

/-- The pipe was closed before the naps of `waiteof` were over. -/
def InTime (s : State) : Prop := s.eofNaps < 1000

/-- How the supervisor can return. -/
inductive Outcome (s : State) : Nat → Prop
  /-- The process group was not there in time, and the child has ended. -/
  | failed {ending : Ending} (late : s.eofNaps = 1000) (ended : s.ended = some ending)
    (reaped : s.reaped = true) (quiet : s.sent = []) :
    Outcome s (if ending.code = 0 then 1 else ending.code)
  /-- It was not, and a signal came in while the child was waited for. -/
  | left (late : s.eofNaps = 1000) (running : s.reaped = false) (quiet : s.sent = [])
    (signalled : s.gotsig ≠ none) : Outcome s 1
  | timeout (inTime : InTime s) (alarm : s.gotsig = some .alrm) (waited : Waited s) : Outcome s exTimeout
  | ended {ending : Ending} (inTime : InTime s) (ended : s.ended = some ending) (reaped : s.reaped = true)
    (noAlarm : s.gotsig ≠ some .alrm) : Outcome s ending.code
  /-- Ten seconds were not enough to kill it. -/
  | stuck (inTime : InTime s) (running : s.reaped = false) (killed : s.sent = [.term,.kill]) (naps : s.naps = 100)
    (noAlarm : s.gotsig ≠ some .alrm) : Outcome s 129

/-- The child is there, and nothing has been sent to it. -/
def Quiet (s : State) : Prop := s.reaped = false ∧ s.sent = [] ∧ s.naps = 0

/-- The child has said that its group is there, or it has ended. -/
def Ready (s : State) : Prop := Quiet s ∧ s.childPipe = false

/-- The group is being killed. -/
def Killing (s : State) (sent : List Signal) : Prop :=
  s.reaped = false ∧ s.group = true ∧ s.gotsig ≠ none ∧ s.sent = sent

/-- What holds where the supervisor is. -/
def Place (s : State) : Pc → Prop
  | .install | .close => Quiet s ∧ s.eofNaps = 0
  | .waiteof timoms => Quiet s ∧ 0 < timoms ∧ timoms+s.eofNaps = 1000
  | .failure | .failureBlocked => Quiet s ∧ s.eofNaps = 1000
  | .timeout | .wait => Ready s
  | .waitBlocked => Ready s ∧ s.group = true
  | .caught => Ready s ∧ (s.gotsig ≠ none ∨ s.group = false)
  | .kill .term => Ready s ∧ s.gotsig ≠ none
  | .kill .kill => Killing s [.term] ∧ s.naps = 50
  | .kill .alrm => False
  | .poll .term timoms => Killing s [.term] ∧ 0 < timoms ∧ timoms+100*s.naps = 5000
  | .poll .kill timoms => Killing s [.term,.kill] ∧ 0 < timoms ∧ timoms+100*s.naps = 10000
  | .poll .alrm _ => False
  | .status => Waited s
  | .returned error => Outcome s error
  | .aborted => Ready s ∧ s.group = false
  | .terminated => True

/-- What has been sent to the group, and when. -/
def Sent (s : State) : Prop :=
  s.sent <+: [.term,.kill] ∧ (.kill ∈ s.sent → 50 ≤ s.naps) ∧ s.naps ≤ 100 ∧
    (s.sent ≠ [] → s.group = true ∧ s.gotsig ≠ none)

/-- Whether the supervisor is behind `step_fork` and has not returned. -/
def Pc.forked : Pc → Bool
  | .timeout | .wait | .waitBlocked | .caught | .kill _ | .poll .. | .status | .aborted => true
  | _ => false

/-- What holds of the supervisor and its child. -/
structure Supervised (c : Settings) (s : State) : Prop where
  session : s.group = true ↔ s.child ≠ .forked
  handshake : s.childPipe = false → s.group = true ∨ s.ended ≠ none
  reaped : s.reaped = true → s.ended ≠ none
  place : Place s s.pc
  sent : Sent s
  printed : s.printed = true ↔ s.pc = .returned exTimeout ∧ c.regress = true ∧ InTime s
  inTime : s.pc.forked = true → InTime s

theorem supervised_forked (c : Settings) : Supervised c forked :=
  ⟨by decide,by decide,by decide,⟨⟨rfl,rfl,rfl⟩,rfl⟩,⟨by decide,by decide,by decide,by decide⟩,by simp [forked],
    by simp [forked,Pc.forked]⟩

section
variable {c : Settings} {s s' : State}

theorem sent_quiet (quiet : Quiet s) : Sent s := by
  obtain ⟨_,none,naps⟩ := quiet
  simp [Sent,none,naps]

theorem sent_killing {sent : List Signal} (killing : Killing s sent) (order : sent <+: [.term,.kill])
    (patience : .kill ∈ sent → 50 ≤ s.naps) (bounded : s.naps ≤ 100) :
    Sent s := by
  obtain ⟨_,group,signalled,rfl⟩ := killing
  exact ⟨order,patience,bounded,fun _ => ⟨group,signalled⟩⟩

theorem supervised_failed (here : Supervised c s) {ending : Ending} (ended : s.ended = some ending) (quiet : Quiet s)
    (late : s.eofNaps = 1000) (silent : s.printed = false) : Supervised c (failed s ending) := by
  refine ⟨here.session,here.handshake,fun _ => by simp [failed,ended],?_,here.sent,by simp [failed,silent,InTime,late],
    by simp [failed,Pc.forked]⟩
  simp only [failed,exitstatus_status ending (show (none : Option Signal) ≠ some .alrm by decide)]
  exact .failed late ended rfl quiet.2.1

theorem supervised_reap (here : Supervised c s) {ending : Ending} (ended : s.ended = some ending)
    (silent : s.printed = false) (inTime : InTime s) :
    Supervised c (reap s ending .status) :=
  ⟨here.session,here.handshake,fun _ => by simp [reap,ended],.inl ⟨ending,ended,rfl,rfl⟩,here.sent,
    by simp [reap,silent],fun _ => inTime⟩

/-- Another tenth of a second, and the kill signal after five seconds. -/
theorem supervised_nap_term {timoms : Int} (here : Supervised c s) (place : Place s (.poll .term timoms))
    (silent : s.printed = false) (inTime : InTime s)
    (taken : (if timoms-100 ≤ 0 then some (gaveUp (nap s .term (timoms-100)) .term)
      else some (nap s .term (timoms-100))) = some s') :
    Supervised c s' := by
  obtain ⟨killing,positive,time⟩ := place
  have few : s.naps+1 ≤ 100 := by omega
  have order : [Signal.term] <+: [.term,.kill] := by decide
  have sent : Sent { s with naps := s.naps+1 } := sent_killing killing order (by simp) few
  split_ifs at taken with late
  · cases taken
    have naps : s.naps+1 = 50 := by omega
    exact ⟨here.session,here.handshake,here.reaped,⟨killing,naps⟩,sent,by simp [gaveUp,nap,silent],fun _ => inTime⟩
  · cases taken
    have time : timoms-100+100*((s.naps+1 : Nat) : Int) = 5000 := by omega
    exact ⟨here.session,here.handshake,here.reaped,⟨killing,by omega,time⟩,sent,by simp [nap,silent],fun _ => inTime⟩

/-- Another tenth of a second, and the end of the patience after ten seconds. -/
theorem supervised_nap_kill {timoms : Int} (here : Supervised c s) (place : Place s (.poll .kill timoms))
    (silent : s.printed = false) (inTime : InTime s)
    (taken : (if timoms-100 ≤ 0 then some (gaveUp (nap s .kill (timoms-100)) .kill)
      else some (nap s .kill (timoms-100))) = some s') :
    Supervised c s' := by
  obtain ⟨killing,positive,time⟩ := place
  have few : s.naps+1 ≤ 100 := by omega
  have many : 50 ≤ s.naps := here.sent.2.1 (by rw [killing.2.2.2]; decide)
  have order : [Signal.term,.kill] <+: [.term,.kill] := by decide
  have sent : Sent { s with naps := s.naps+1 } := sent_killing killing order (fun _ => by simp; omega) few
  split_ifs at taken with late
  · cases taken
    have naps : s.naps+1 = 100 := by omega
    exact ⟨here.session,here.handshake,here.reaped,.inr ⟨killing.1,killing.2.2.2,naps,rfl⟩,sent,
      by simp [gaveUp,nap,silent],fun _ => inTime⟩
  · cases taken
    have time : timoms-100+100*((s.naps+1 : Nat) : Int) = 10000 := by omega
    exact ⟨here.session,here.handshake,here.reaped,⟨killing,by omega,time⟩,sent,by simp [nap,silent],fun _ => inTime⟩

theorem returned_outcome {status : Nat} {printed : Bool} (waited : Waited s) (inTime : InTime s)
    (known : s.status = some status) :
    Outcome { s with printed, pc := .returned (exitstatus status s.gotsig) } (exitstatus status s.gotsig) := by
  by_cases alarm : s.gotsig = some .alrm
  · rw [alarm]
    exact .timeout inTime rfl waited
  rcases waited with ⟨ending,ended,reaped,same⟩ | ⟨running,killed,naps,same⟩
  · cases known.symm.trans same
    have code := exitstatus_status ending alarm
    rw [code]
    exact .ended inTime ended reaped alarm
  · cases known.symm.trans same
    have code : exitstatus 1 s.gotsig = 129 := by
      rw [exitstatus,if_neg alarm]
      rfl
    rw [code]
    exact .stuck inTime running killed naps alarm

theorem supervised_go (here : Supervised c s) (taken : go c s = some s') : Supervised c s' := by
  obtain ⟨session,handshake,reaped,place,sent,printed,inTime⟩ := here
  have silent : s.printed = false := by
    rw [← Bool.not_eq_true]
    intro done
    simp [go,(printed.mp done).1] at taken
  unfold go at taken
  cases pc : s.pc with
  | install =>
    rw [pc] at taken place
    cases taken
    exact ⟨session,handshake,reaped,place,sent,by simp [silent],by simp [Pc.forked]⟩
  | close =>
    rw [pc] at taken place
    cases taken
    exact ⟨session,handshake,reaped,⟨place.1,by decide,by simp [place.2]⟩,sent,by simp [silent],by simp [Pc.forked]⟩
  | waiteof timoms =>
    rw [pc] at taken place
    obtain ⟨quiet,positive,time⟩ := place
    simp only at taken
    split_ifs at taken with again late
    · cases taken
      have naps : s.eofNaps+1 = 1000 := by omega
      exact ⟨session,handshake,reaped,⟨quiet,naps⟩,sent,by simp [silent],by simp [Pc.forked]⟩
    · cases taken
      have time : timoms-1+((s.eofNaps+1 : Nat) : Int) = 1000 := by omega
      exact ⟨session,handshake,reaped,⟨quiet,by omega,time⟩,sent,by simp [silent],by simp [Pc.forked]⟩
    · cases taken
      have closed : s.childPipe = false := by simpa using fun still => again (.inr still)
      exact ⟨session,handshake,reaped,⟨quiet,closed⟩,sent,by simp [silent],fun _ => show s.eofNaps < 1000 by omega⟩
  | failure =>
    rw [pc] at taken place
    cases ended : s.ended with
    | none =>
      simp only [ended,↓reduceIte,Option.some.injEq] at taken
      subst taken
      rw [ended] at handshake reaped
      exact ⟨session,handshake,reaped,place,sent,by simp [silent],by simp [Pc.forked]⟩
    | some ending =>
      simp only [ended,Option.some.injEq] at taken
      subst taken
      exact supervised_failed ⟨session,handshake,reaped,by rwa [pc],sent,printed,inTime⟩ ended place.1 place.2 silent
  | failureBlocked =>
    rw [pc] at taken place
    cases ended : s.ended with
    | none => simp [ended] at taken
    | some ending =>
      simp only [ended,Option.some.injEq] at taken
      subst taken
      exact supervised_failed ⟨session,handshake,reaped,by rwa [pc],sent,printed,inTime⟩ ended place.1 place.2 silent
  | timeout =>
    rw [pc] at taken place
    cases taken
    exact ⟨session,handshake,reaped,place,sent,by simp [silent],fun _ => inTime (by rw [pc]; rfl)⟩
  | wait =>
    rw [pc] at taken place
    simp only at taken
    split_ifs at taken with backdoor there
    · cases taken
      exact ⟨session,handshake,reaped,⟨place,.inl (by simp)⟩,sent_quiet place.1,by simp [silent],fun _ =>
        inTime (by rw [pc]; rfl)⟩
    · cases taken
      exact ⟨session,handshake,reaped,⟨place,there.1⟩,sent,by simp [silent],fun _ => inTime (by rw [pc]; rfl)⟩
    · cases taken
      have alone : s.group = false := by simpa [place.1.1] using there
      exact ⟨session,handshake,reaped,⟨place,.inr alone⟩,sent,by simp [silent],fun _ => inTime (by rw [pc]; rfl)⟩
  | waitBlocked =>
    rw [pc] at taken
    obtain ⟨ending,ended,rfl⟩ := Option.map_eq_some_iff.mp taken
    exact supervised_reap ⟨session,handshake,reaped,place,sent,printed,inTime⟩ ended silent (inTime (by rw [pc]; rfl))
  | caught =>
    rw [pc] at taken place
    obtain ⟨ready,cause⟩ := place
    simp only [Option.some.injEq] at taken
    subst taken
    have quiet : ¬ (if s.gotsig = none then Pc.aborted else .kill .term) = .returned exTimeout := by split_ifs <;> simp
    refine ⟨session,handshake,reaped,?_,sent,by simp [silent,quiet],fun _ => inTime (by rw [pc]; rfl)⟩
    by_cases unsignalled : s.gotsig = none
    · have alone := cause.resolve_left (not_not_intro unsignalled)
      simp only [unsignalled,↓reduceIte]
      exact ⟨ready,alone⟩
    · simp only [unsignalled,↓reduceIte]
      exact ⟨ready,unsignalled⟩
  | kill signo =>
    rw [pc] at taken place
    simp only at taken
    cases signo with
    | alrm => exact place.elim
    | term =>
      obtain ⟨⟨quiet,closed⟩,signalled⟩ := place
      split_ifs at taken with there
      · cases taken
        have killing : Killing { s with sent := s.sent ++ [.term], pc := .poll .term 5000 } [.term] :=
          ⟨quiet.1,there.1,signalled,by simp [quiet.2.1]⟩
        refine ⟨session,handshake,reaped,⟨killing,by decide,?_⟩,sent_killing killing (by decide) (by simp) ?_,
          by simp [silent],fun _ => inTime (by rw [pc]; rfl)⟩
        · simp [quiet.2.2]
        · simp [quiet.2.2]
      · cases taken
        have alone : s.group = false := by simpa [quiet.1] using there
        exact ⟨session,handshake,reaped,⟨⟨quiet,closed⟩,alone⟩,sent,by simp [silent],fun _ => inTime (by rw [pc]; rfl)⟩
    | kill =>
      obtain ⟨⟨running,group,signalled,term⟩,naps⟩ := place
      rw [if_pos ⟨group,by simp [running]⟩] at taken
      cases taken
      have killing : Killing { s with sent := s.sent ++ [.kill], pc := .poll .kill 5000 } [.term,.kill] :=
        ⟨running,group,signalled,by simp [term]⟩
      refine ⟨session,handshake,reaped,⟨killing,by decide,?_⟩,sent_killing killing (by decide) (fun _ => ?_) ?_,
        by simp [silent],fun _ => inTime (by rw [pc]; rfl)⟩
      all_goals simp [naps]
  | poll signo timoms =>
    rw [pc] at taken place
    have killing : s.group = true ∧ ¬ s.reaped = true := by
      cases signo with
      | alrm => exact place.elim
      | term => exact ⟨place.1.2.1,by simp [place.1.1]⟩
      | kill => exact ⟨place.1.2.1,by simp [place.1.1]⟩
    simp only at taken
    rw [if_pos killing] at taken
    cases ended : s.ended with
    | some ending =>
      simp only [ended,Option.some.injEq] at taken
      subst taken
      exact supervised_reap ⟨session,handshake,reaped,by rwa [pc],sent,printed,inTime⟩ ended silent
        (inTime (by rw [pc]; rfl))
    | none =>
      simp only [ended] at taken
      have supervised : Supervised c s := ⟨session,handshake,reaped,by rwa [pc],sent,printed,inTime⟩
      have inTime := inTime (by rw [pc]; rfl)
      cases signo with
      | alrm => exact place.elim
      | term => exact supervised_nap_term supervised place silent inTime taken
      | kill => exact supervised_nap_kill supervised place silent inTime taken
  | status =>
    rw [pc] at taken place
    obtain ⟨status,known,rfl⟩ := Option.map_eq_some_iff.mp taken
    have inTime : s.eofNaps < 1000 := inTime (by rw [pc]; rfl)
    exact ⟨session,handshake,reaped,returned_outcome place inTime known,sent,by simp [silent,InTime,inTime],
      by simp [Pc.forked]⟩
  | returned error => simp [pc] at taken
  | aborted => simp [pc] at taken
  | terminated => simp [pc] at taken

/-- A signal to the supervisor. -/
theorem supervised_signal {signo : Signal} (here : Supervised c s) (taken : caughtSignal s signo = some s') :
    Supervised c s' := by
  obtain ⟨session,handshake,reaped,place,sent,printed,inTime⟩ := here
  unfold caughtSignal at taken
  split_ifs at taken with running caught
  · cases taken
    have silent : s.printed = false := by
      rw [← Bool.not_eq_true]
      intro done
      rw [(printed.mp done).1] at running
      cases running
    have unprinted : s.pc.interrupted ≠ .returned exTimeout := by
      cases pc : s.pc <;> simp_all [Pc.interrupted,Pc.running,exTimeout]
    have forked : s.pc.interrupted.forked = true → s.pc.forked = true := by
      cases pc : s.pc <;> simp [Pc.interrupted,Pc.forked]
    refine ⟨session,handshake,reaped,?_,⟨sent.1,sent.2.1,sent.2.2.1,fun some_ => ⟨(sent.2.2.2 some_).1,by simp⟩⟩,
      by simp [silent,unprinted],fun behind => inTime (forked behind)⟩
    cases pc : s.pc with
    | failureBlocked =>
      rw [pc] at place
      exact .left place.2 place.1.1 place.1.2.1 (by simp)
    | waitBlocked =>
      rw [pc] at place
      exact ⟨place.1,.inl (by simp)⟩
    | caught =>
      rw [pc] at place
      exact ⟨place.1,.inl (by simp)⟩
    | kill signo =>
      rw [pc] at place
      cases signo with
      | alrm => exact place.elim
      | term => exact ⟨place.1,by simp⟩
      | kill => exact ⟨⟨place.1.1,place.1.2.1,by simp,place.1.2.2.2⟩,place.2⟩
    | poll signo timoms =>
      rw [pc] at place
      cases signo with
      | alrm => exact place.elim
      | term => exact ⟨⟨place.1.1,place.1.2.1,by simp,place.1.2.2.2⟩,place.2⟩
      | kill => exact ⟨⟨place.1.1,place.1.2.1,by simp,place.1.2.2.2⟩,place.2⟩
    | install | close | waiteof | failure | timeout | wait | status => rw [pc] at place; exact place
    | returned | aborted | terminated => rw [pc] at running; cases running
  · cases taken
    have silent : s.printed = false := by
      rw [← Bool.not_eq_true]
      intro done
      rw [(printed.mp done).1] at running
      cases running
    exact ⟨session,handshake,reaped,trivial,sent,by simp [silent],by simp [Pc.forked]⟩

/-- What the child does changes nothing where the supervisor is. -/
theorem place_child {child : Child} {group childPipe : Bool} {ended : Option Ending} (place : Place s s.pc)
    (closed : s.childPipe = false → childPipe = false ∧ group = s.group)
    (session : s.group = true → group = true) (ends : ∀ ending, s.ended = some ending → ended = some ending) :
    Place { s with child, group, childPipe, ended } s.pc := by
  have killing : ∀ sent, Killing s sent → Killing { s with child, group, childPipe, ended } sent :=
    fun _ there => ⟨there.1,session there.2.1,there.2.2⟩
  have ready : Ready s → Ready { s with child, group, childPipe, ended } := fun there => ⟨there.1,(closed there.2).1⟩
  cases pc : s.pc with
  | install | close | waiteof | failure | failureBlocked => rw [pc] at place; exact place
  | timeout | wait => rw [pc] at place; exact ready place
  | waitBlocked => rw [pc] at place; exact ⟨ready place.1,session place.2⟩
  | caught =>
    rw [pc] at place
    exact ⟨ready place.1,place.2.imp_right fun alone => (closed place.1.2).2.trans alone⟩
  | kill signo =>
    rw [pc] at place
    cases signo with
    | alrm => exact place.elim
    | term => exact ⟨ready place.1,place.2⟩
    | kill => exact ⟨killing _ place.1,place.2⟩
  | poll signo timoms =>
    rw [pc] at place
    cases signo with
    | alrm => exact place.elim
    | term => exact ⟨killing _ place.1,place.2⟩
    | kill => exact ⟨killing _ place.1,place.2⟩
  | status =>
    rw [pc] at place
    exact place.imp_left fun ⟨ending,there,others⟩ => ⟨ending,ends ending there,others⟩
  | returned error =>
    rw [pc] at place
    cases place with
    | failed late there reaped quiet => exact .failed late (ends _ there) reaped quiet
    | left late running quiet signalled => exact .left late running quiet signalled
    | timeout inTime alarm waited =>
      exact .timeout inTime alarm (waited.imp_left fun ⟨ending,there,others⟩ => ⟨ending,ends ending there,others⟩)
    | ended inTime there reaped noAlarm => exact .ended inTime (ends _ there) reaped noAlarm
    | stuck inTime running killed naps noAlarm => exact .stuck inTime running killed naps noAlarm
  | aborted =>
    rw [pc] at place
    exact ⟨ready place.1,(closed place.1.2).2.trans place.2⟩
  | terminated => trivial

theorem supervised_step {a : Action} (here : Supervised c s) (taken : step c s a = some s') : Supervised c s' := by
  cases a with
  | go => exact supervised_go here taken
  | signal signo => exact supervised_signal here taken
  | setsid =>
    obtain ⟨session,handshake,reaped,place,sent,printed,inTime⟩ := here
    simp only [step,Option.ite_none_right_eq_some,Option.some.injEq] at taken
    obtain ⟨⟨forked,alive⟩,rfl⟩ := taken
    have open_ : s.childPipe = false → False := by
      intro closed
      rcases handshake closed with group | ended
      · exact session.mp group forked
      · exact ended alive
    refine ⟨by simp,fun _ => .inl rfl,reaped,?_,
      ⟨sent.1,sent.2.1,sent.2.2.1,fun some_ => ⟨rfl,(sent.2.2.2 some_).2⟩⟩,printed,inTime⟩
    exact place_child place (fun closed => (open_ closed).elim) (fun _ => rfl) fun _ there => there
  | close =>
    obtain ⟨session,handshake,reaped,place,sent,printed,inTime⟩ := here
    simp only [step,Option.ite_none_right_eq_some,Option.some.injEq] at taken
    obtain ⟨⟨made,alive⟩,rfl⟩ := taken
    have group : s.group = true := session.mpr (by simp [made])
    refine ⟨by simp [group],fun _ => .inl group,reaped,?_,sent,printed,inTime⟩
    exact place_child place (fun _ => ⟨rfl,rfl⟩) id fun _ there => there
  | ends ending =>
    obtain ⟨session,handshake,reaped,place,sent,printed,inTime⟩ := here
    simp only [step,Option.ite_none_right_eq_some,Option.some.injEq] at taken
    obtain ⟨alive,rfl⟩ := taken
    refine ⟨session,fun _ => .inr (by simp),fun _ => by simp,?_,sent,printed,inTime⟩
    exact place_child place (fun _ => ⟨rfl,rfl⟩) id fun _ there => absurd there (by simp [alive])

end

/-! ## Alarms and signals -/

/-- An alarm is only caught where there is a timeout. -/
def Alarmed (c : Settings) (s : State) : Prop :=
  (s.catchesAlarm = true → 0 < stepTimeout c) ∧ (s.gotsig = some .alrm → c.backdoor = true ∨ 0 < stepTimeout c)

section
variable {c : Settings} {s s' : State}

/-- What a step of the supervisor does to what it has sent and to its handlers. -/
theorem go_cases (taken : go c s = some s') :
    (s'.sent = s.sent ∨ ∃ signo, s.pc = .kill signo ∧ s.group = true ∧ s.reaped = false ∧ s'.sent = s.sent ++ [signo]) ∧
    (s'.catchesAlarm = s.catchesAlarm ∨ s'.catchesAlarm = (s.catchesAlarm || decide (0 < stepTimeout c))) ∧
    (s'.gotsig = s.gotsig ∨ c.backdoor = true) := by
  unfold go at taken
  cases pc : s.pc with
  | install | close | timeout | caught => rw [pc] at taken; cases taken; simp
  | waiteof timoms =>
    simp only [pc] at taken
    split_ifs at taken <;> cases taken <;> simp
  | failure =>
    cases ended : s.ended <;> simp only [pc,ended,↓reduceIte,Option.some.injEq] at taken <;>
      subst taken <;> simp [failed]
  | failureBlocked =>
    cases ended : s.ended with
    | none => simp [pc,ended] at taken
    | some ending =>
      simp only [pc,ended,Option.some.injEq] at taken
      subst taken
      simp [failed]
  | wait =>
    simp only [pc] at taken
    split_ifs at taken with backdoor
    · cases taken; simp [backdoor]
    · cases taken; simp
    · cases taken; simp
  | waitBlocked =>
    simp only [pc] at taken
    obtain ⟨ending,_,rfl⟩ := Option.map_eq_some_iff.mp taken
    simp [reap]
  | kill signo =>
    simp only [pc] at taken
    split_ifs at taken with there
    · cases taken
      exact ⟨.inr ⟨signo,rfl,there.1,by simpa using there.2,rfl⟩,.inl rfl,.inl rfl⟩
    · cases taken; simp
  | poll signo timoms =>
    simp only [pc] at taken
    have gives : ∀ s : State, (gaveUp s signo).sent = s.sent ∧ (gaveUp s signo).catchesAlarm = s.catchesAlarm ∧
        (gaveUp s signo).gotsig = s.gotsig := by
      intro s
      cases signo <;> exact ⟨rfl,rfl,rfl⟩
    by_cases killing : s.group = true ∧ ¬ s.reaped = true
    · rw [if_pos killing] at taken
      cases ended : s.ended with
      | some ending =>
        simp only [ended,Option.some.injEq] at taken
        subst taken
        simp [reap]
      | none =>
        simp only [ended] at taken
        split_ifs at taken <;> cases taken <;> simp [gives,nap]
    · rw [if_neg killing] at taken
      cases taken
      simp [gives]
  | status =>
    simp only [pc] at taken
    obtain ⟨status,_,rfl⟩ := Option.map_eq_some_iff.mp taken
    simp
  | returned | aborted | terminated => rw [pc] at taken; cases taken

theorem alarmed_step {a : Action} (here : Alarmed c s) (taken : step c s a = some s') : Alarmed c s' := by
  obtain ⟨catches,alarm⟩ := here
  cases a with
  | go =>
    obtain ⟨_,handlers,signals⟩ := go_cases taken
    refine ⟨?_,?_⟩
    · intro caught
      rcases handlers with same | armed
      · exact catches (same ▸ caught)
      · rw [armed,Bool.or_eq_true,decide_eq_true_eq] at caught
        exact caught.elim catches id
    · intro alrm
      rcases signals with same | backdoor
      · exact alarm (same ▸ alrm)
      · exact .inl backdoor
  | signal signo =>
    simp only [step,caughtSignal] at taken
    split_ifs at taken with running caught
    · cases taken
      refine ⟨catches,?_⟩
      intro alrm
      cases alrm
      exact .inr (catches caught)
    · cases taken
      exact ⟨catches,alarm⟩
  | setsid | close | ends =>
    simp only [step,Option.ite_none_right_eq_some,Option.some.injEq] at taken
    obtain ⟨_,rfl⟩ := taken
    exact ⟨catches,alarm⟩

end

/-! ## The end -/

/-- How many steps the supervisor has left, at most. -/
def rank (s : State) : Nat :=
  match s.pc with
  | .install => 1109
  | .close => 1108
  | .waiteof timoms => 107+timoms.toNat
  | .timeout => 107
  | .wait => 106
  | .waitBlocked => 105
  | .caught => 104
  | .kill .kill => 52
  | .kill _ => 103
  | .poll .kill _ => 1+(100-s.naps)
  | .poll _ _ => 52+(50-s.naps)
  | .status => 1
  | .failure => 2
  | .failureBlocked => 1
  | .returned _ | .aborted | .terminated => 0

section
variable {c : Settings} {s s' : State}

/-- Every step of the supervisor is one of those left. -/
theorem go_rank (here : Supervised c s) (taken : go c s = some s') : rank s' < rank s := by
  have place := here.place
  unfold go at taken
  cases pc : s.pc with
  | install | close | timeout => rw [pc] at taken; cases taken; simp [rank,pc]
  | waiteof timoms =>
    simp only [pc] at taken place
    have positive := place.2.1
    split_ifs at taken
    · cases taken
      simp only [rank,pc]
      omega
    · cases taken
      simp only [rank,pc]
      omega
    · cases taken
      simp only [rank,pc]
      omega
  | failure =>
    cases ended : s.ended <;> simp only [pc,ended,↓reduceIte,Option.some.injEq] at taken <;> subst taken <;>
      simp [rank,pc,failed]
  | failureBlocked =>
    cases ended : s.ended with
    | none => simp [pc,ended] at taken
    | some ending =>
      simp only [pc,ended,Option.some.injEq] at taken
      subst taken
      simp [rank,pc,failed]
  | wait =>
    simp only [pc] at taken
    split_ifs at taken <;> cases taken <;> simp [rank,pc]
  | waitBlocked =>
    simp only [pc] at taken
    obtain ⟨ending,_,rfl⟩ := Option.map_eq_some_iff.mp taken
    simp [rank,pc,reap]
  | caught =>
    simp only [pc] at taken
    cases taken
    by_cases unsignalled : s.gotsig = none <;> simp [rank,pc,unsignalled]
  | kill signo =>
    simp only [pc] at taken place
    cases signo with
    | alrm => exact place.elim
    | term =>
      have naps := place.1.1.2.2
      split_ifs at taken <;> cases taken <;> simp [rank,pc,naps]
    | kill =>
      have naps := place.2
      split_ifs at taken <;> cases taken <;> simp [rank,pc,naps]
  | poll signo timoms =>
    simp only [pc] at taken place
    have few : (∀ ending, rank (reap s ending .status) < rank s) ∧ rank (gaveUp s signo) < rank s ∧
      rank (gaveUp (nap s signo (timoms-100)) signo) < rank s ∧
        rank (nap s signo (timoms-100)) < rank s := by
      cases signo with
      | alrm => exact place.elim
      | term =>
        obtain ⟨_,positive,time⟩ := place
        refine ⟨fun _ => ?_,?_,?_,?_⟩
        all_goals
          simp only [rank,pc,reap,gaveUp,nap]
          omega
      | kill =>
        obtain ⟨_,positive,time⟩ := place
        refine ⟨fun _ => ?_,?_,?_,?_⟩
        all_goals
          simp only [rank,pc,reap,gaveUp,nap]
          omega
    by_cases killing : s.group = true ∧ ¬ s.reaped = true
    · rw [if_pos killing] at taken
      cases ended : s.ended with
      | some ending =>
        simp only [ended,Option.some.injEq] at taken
        subst taken
        exact few.1 ending
      | none =>
        simp only [ended] at taken
        split_ifs at taken
        · cases taken
          exact few.2.2.1
        · cases taken
          exact few.2.2.2
    · rw [if_neg killing] at taken
      cases taken
      exact few.2.1
  | status =>
    simp only [pc] at taken
    obtain ⟨status,_,rfl⟩ := Option.map_eq_some_iff.mp taken
    simp [rank,pc]
  | returned | aborted | terminated => rw [pc] at taken; cases taken

/-- Nothing else gives it more steps. -/
theorem step_rank {a : Action} (taken : step c s a = some s') (other : a ≠ .go) : rank s' ≤ rank s := by
  cases a with
  | go => exact absurd rfl other
  | signal signo =>
    simp only [step,caughtSignal] at taken
    split_ifs at taken with running caught
    · cases taken
      cases pc : s.pc <;> simp [rank,pc,Pc.interrupted]
    · cases taken
      simp [rank]
  | setsid | close | ends =>
    simp only [step,Option.ite_none_right_eq_some,Option.some.injEq] at taken
    obtain ⟨_,rfl⟩ := taken
    exact Nat.le_refl _

/-- Where the supervisor cannot go on it has ended, or it waits for a child that has not. -/
theorem go_none (here : Supervised c s) (blocked : go c s = none) :
    s.pc.running = false ∨ s.ended = none ∧ (s.pc = .failureBlocked ∨ s.pc = .waitBlocked) := by
  have place := here.place
  unfold go at blocked
  cases pc : s.pc with
  | install | close | timeout | caught => rw [pc] at blocked; cases blocked
  | waiteof timoms | wait | kill signo =>
    simp only [pc] at blocked
    split_ifs at blocked
  | failure =>
    cases ended : s.ended <;> simp [pc,ended] at blocked
  | failureBlocked =>
    cases ended : s.ended with
    | none => exact .inr ⟨rfl,.inl rfl⟩
    | some ending => simp [pc,ended] at blocked
  | waitBlocked =>
    simp only [pc,Option.map_eq_none_iff] at blocked
    exact .inr ⟨blocked,.inr rfl⟩
  | poll signo timoms =>
    simp only [pc] at blocked
    by_cases killing : s.group = true ∧ ¬ s.reaped = true
    · rw [if_pos killing] at blocked
      cases ended : s.ended with
      | some ending => simp [ended] at blocked
      | none =>
        simp only [ended] at blocked
        split_ifs at blocked
    · rw [if_neg killing] at blocked
      cases blocked
  | status =>
    simp only [pc] at blocked place
    rcases place with ⟨_,_,_,known⟩ | ⟨_,_,_,known⟩
    · simp [known] at blocked
    · simp [known] at blocked
  | returned | aborted | terminated => exact .inl rfl

end

/-! ## Runs -/

theorem supervised {c : Settings} {s : State} (reached : (stepExec c).Reachable s) : Supervised c s :=
  invariant_always (S := stepExec c) (fun _ (first : _ = forked) => first ▸ supervised_forked c)
    (fun _ _ _ here taken => supervised_step here taken) reached

theorem alarmed {c : Settings} {s : State} (reached : (stepExec c).Reachable s) : Alarmed c s := by
  refine invariant_always (S := stepExec c) ?_ (fun _ _ _ here taken => alarmed_step here taken) reached
  rintro s rfl
  exact ⟨fun caught => absurd caught (by decide),fun alarm => absurd alarm (by decide)⟩

/-- What `step_exec` returns, whatever the child does and whenever signals come in; the
    status is there when it is read. It is 0 only for a child that has exited with 0, has
    been waited for and was not over its time. A child is left unreaped only where the kill
    signal was sent to its group in vain, or where there was no group in time. An alarm is
    only caught where a timeout is set. `FAILED` is printed for 124, which is also what a
    child may exit with, unless there was no group in time. -/
theorem step_exec_returns {c : Settings} {s : State} (reached : (stepExec c).Reachable s) :
    (s.pc = .status → s.status.isSome = true) ∧ ∀ error, s.pc = .returned error →
      Outcome s error ∧ (error = 0 → s.ended = some (.exited 0) ∧ s.reaped = true ∧ s.gotsig ≠ some .alrm) ∧
        (s.reaped = false → s.sent = [.term,.kill] ∧ s.naps = 100 ∨ s.sent = [] ∧ error = 1 ∧ s.eofNaps = 1000) ∧
        (s.gotsig = some .alrm → c.backdoor = true ∨ 0 < stepTimeout c) ∧
        (s.printed = true ↔ error = exTimeout ∧ c.regress = true ∧ InTime s) := by
  have here := supervised reached
  refine ⟨fun read => ?_,fun error returned => ?_⟩
  · have place := here.place
    rw [read] at place
    rcases place with ⟨_,_,_,known⟩ | ⟨_,_,_,known⟩ <;> rw [known] <;> rfl
  have outcome : Outcome s error := by
    have place := here.place
    rwa [returned] at place
  refine ⟨outcome,?_,?_,(alarmed reached).2,?_⟩
  · intro success
    cases outcome with
    | failed => split_ifs at success; contradiction
    | left => cases success
    | timeout => cases success
    | @ended ending _ ended reaped noAlarm =>
      cases ending with
      | exited code =>
        have zero : code = 0 := UInt8.toNat_inj.mp success
        exact ⟨by rw [ended,zero],reaped,noAlarm⟩
      | signaled signo core =>
        simp only [Ending.code] at success
        omega
    | stuck => cases success
  · intro running
    cases outcome with
    | failed _ _ reaped _ => rw [reaped] at running; cases running
    | left late _ quiet _ => exact .inr ⟨quiet,rfl,late⟩
    | timeout _ alarm waited =>
      rcases waited with ⟨_,_,reaped,_⟩ | ⟨_,killed,naps,_⟩
      · rw [reaped] at running
        cases running
      · exact .inl ⟨killed,naps⟩
    | ended _ _ reaped _ => rw [reaped] at running; cases running
    | stuck _ _ killed naps _ => exact .inl ⟨killed,naps⟩
  · rw [here.printed,returned,Pc.returned.injEq]

/-- The child makes its group and executes the command. -/
def started : List Action := [.go,.go,.setsid,.close,.go,.go,.go]

/-- The alarm comes in and the term signal ends the group. -/
def overdue : List Action :=
  started ++ [.signal .alrm,.go,.go,.ends (.signaled ⟨15,by decide⟩ false),.go,.go]

/-- A step that succeeds, and a suite that takes too long. -/
theorem step_exec_returns_success :
    (∃ s, (stepExec ⟨false,0,false⟩).run forked (started ++ [.ends (.exited 0),.go,.go]) = some s ∧
      s.pc = .returned 0 ∧ s.ended = some (.exited 0) ∧ s.reaped = true) ∧
    ∃ s, (stepExec ⟨true,5,false⟩).run forked overdue = some s ∧
      s.pc = .returned exTimeout ∧ s.sent = [.term] ∧ s.printed = true := by
  constructor
  · have found : ((stepExec ⟨false,0,false⟩).run forked (started ++ [.ends (.exited 0),.go,.go])).any fun s =>
        s.pc = .returned 0 := by
      decide +kernel
    obtain ⟨s,ran,reached,pc⟩ := reachable_any (.start rfl) found
    obtain ⟨_,success,_⟩ := (step_exec_returns reached).2 0 pc
    exact ⟨s,ran,pc,(success rfl).1,(success rfl).2.1⟩
  · have found : ((stepExec ⟨true,5,false⟩).run forked overdue).any fun s =>
        s.pc = .returned exTimeout ∧ s.sent = [.term] ∧ s.eofNaps = 0 := by
      decide +kernel
    obtain ⟨s,ran,reached,pc,sent,early⟩ := reachable_any (.start rfl) found
    obtain ⟨_,_,_,_,printed⟩ := (step_exec_returns reached).2 exTimeout pc
    have inTime : InTime s := by
      rw [InTime,early]
      decide
    exact ⟨s,ran,pc,sent,printed.mpr ⟨rfl,rfl,inTime⟩⟩

/-- A signal is only sent to a group that is there, before its leader has been reaped,
    and only if one has come in or the backdoor asks for it: first the term signal, and the
    kill signal only fifty naps later. The supervisor is left by `err` only where the child
    has ended without a group. -/
theorem step_exec_signals {c : Settings} {s : State} (reached : (stepExec c).Reachable s) :
    Sent s ∧ (s.pc = .aborted → s.group = false ∧ s.ended ≠ none ∧ s.sent = []) ∧
      ∀ a s', step c s a = some s' → s'.sent = s.sent ∨
        s.group = true ∧ s.reaped = false ∧ s.gotsig ≠ none ∧
          (s'.sent = [.term] ∨ s.sent = [.term] ∧ s'.sent = [.term,.kill] ∧ s.naps = 50) := by
  have here := supervised reached
  refine ⟨here.sent,?_,?_⟩
  · intro aborted
    have place := here.place
    rw [aborted] at place
    obtain ⟨⟨quiet,closed⟩,alone⟩ := place
    refine ⟨alone,(here.handshake closed).resolve_left (by simp [alone]),quiet.2.1⟩
  · intro a s' taken
    cases a with
    | go =>
      obtain ⟨same | ⟨signo,pc,group,running,sent⟩,_⟩ := go_cases taken
      · exact .inl same
      · have place := here.place
        rw [pc] at place
        cases signo with
        | alrm => exact place.elim
        | term => exact .inr ⟨group,running,place.2,.inl (by rw [sent,place.1.1.2.1]; rfl)⟩
        | kill =>
          obtain ⟨⟨_,_,signalled,term⟩,naps⟩ := place
          exact .inr ⟨group,running,signalled,.inr ⟨term,by rw [sent,term]; rfl,naps⟩⟩
    | signal signo =>
      simp only [step,caughtSignal] at taken
      split_ifs at taken <;> cases taken <;> exact .inl rfl
    | setsid | close | ends =>
      simp only [step,Option.ite_none_right_eq_some,Option.some.injEq] at taken
      obtain ⟨_,rfl⟩ := taken
      exact .inl rfl

/-- A step that is terminated. -/
theorem step_exec_signals_term :
    ∃ s, (stepExec ⟨false,0,false⟩).run forked (started ++ [.signal .term,.go,.go]) = some s ∧
    s.sent = [.term] ∧ s.group = true := by
  obtain ⟨s,ran,sent⟩ : ∃ s, (stepExec ⟨false,0,false⟩).run forked (started ++ [.signal .term,.go,.go]) = some s ∧
    s.sent = [.term] :=
    ⟨_,rfl,rfl⟩
  obtain ⟨there,_⟩ := step_exec_signals (reachable_run (.start rfl) ran)
  exact ⟨s,ran,sent,(there.2.2.2 (by simp [sent])).1⟩

/-- The steps of the supervisor in a list of actions. -/
def steps (actions : List Action) : Nat := (actions.filter fun a => a matches .go).length

theorem run_rank {c : Settings} {actions : List Action} {s s' : State} (here : Supervised c s)
    (ran : (stepExec c).run s actions = some s') :
    Supervised c s' ∧ steps actions+rank s' ≤ rank s := by
  induction actions generalizing s with
  | nil =>
    cases ran
    exact ⟨here,by simp [steps]⟩
  | cons a actions ih =>
    obtain ⟨next,(taken : step c s a = some next),rest⟩ := Option.bind_eq_some_iff.mp ran
    obtain ⟨there,fewer⟩ := ih (supervised_step here taken) rest
    refine ⟨there,?_⟩
    cases a with
    | go =>
      have less := go_rank here taken
      simp only [steps,List.filter_cons,↓reduceIte,List.length_cons] at fewer ⊢
      omega
    | setsid | close | ends | signal =>
      have less := step_rank taken (by simp)
      simp only [steps,List.filter_cons,Bool.false_eq_true,↓reduceIte] at fewer ⊢
      omega

/-- The supervisor does not go on forever: in any run it takes at most 1109 steps, and
    where it cannot go on it has ended, or waits for a child that has not. -/
theorem step_exec_progress {c : Settings} {actions : List Action} {s : State}
    (ran : (stepExec c).run forked actions = some s) :
    steps actions ≤ 1109 ∧ (step c s .go = none → s.pc.running = false ∨ s.ended = none ∧
      (s.pc = .failureBlocked ∨ s.pc = .waitBlocked)) := by
  obtain ⟨there,fewer⟩ := run_rank (supervised_forked c) ran
  have most : rank forked = 1109 := rfl
  exact ⟨by omega,go_none there⟩

/-- A step that is still running. -/
theorem step_exec_progress_started :
    ∃ s, (stepExec ⟨false,0,false⟩).run forked started = some s ∧ step ⟨false,0,false⟩ s .go = none ∧
    s.ended = none := by
  obtain ⟨s,ran,pc,blocked⟩ : ∃ s, (stepExec ⟨false,0,false⟩).run forked started = some s ∧ s.pc.running = true ∧
      step ⟨false,0,false⟩ s .go = none := ⟨_,rfl,rfl,rfl⟩
  rcases (step_exec_progress ran).2 blocked with ended | waits
  · rw [pc] at ended
    cases ended
  · exact ⟨s,ran,blocked,waits.1⟩

end Robsd.StepExec
