import Robsd.Scheduler
import Robsd.StepRecord

/-!
The execution of a build (util.sh): `step_exec_job` around every step, the loops
of `robsd_exec_steps` and `robsd`, and what the utilities do before them on the
first invocation and on one that resumes. The step file is the bytes that
`robsd-step` writes; the jobs write to it in any order, and the build may be cut
off anywhere.
-/
namespace Robsd.Execution
open Robsd.Strings
open Robsd.Decimal (decimal strtonum)
open Robsd.Scheduler (Entry endName)
open Robsd.Shell
open Robsd.Sorting (Qsort)
open Robsd.Steps
open Robsd.StepCommand
open Robsd.StepMap (Store ListOf)
open Robsd.StepShell
open Robsd.StepRecord
open Robsd.Transition

/-- What is fixed during a build: the settings, the lines of `robsd-step -L`, the
    test for a configured regress suite, and the names in `SKIP`, each with what
    `step_id` prints for it. -/
structure Setup where
  q : Qsort Step.id
  sh : Interpreter
  ncpu : Nat
  reboot : Bool
  regress : Bool
  suite : Str → Bool
  steps : List Entry
  skips : List (Arg × Arg)
  numbered : ∀ i (within : i < steps.length), steps[i].id = i+1

/-- How far a job has come; a job that is done has a return code, and a hook
    that was invoked for it one as well. -/
inductive Stage where
  | begun
  | recorded
  | done (code : Nat) (hook : Option Nat)
  deriving DecidableEq, Repr

/-- An execution of a step, in the background when it has a pid. -/
structure Job where
  pid : Option Nat
  entry : Entry
  stage : Stage
  deriving DecidableEq, Repr

def Job.isDone (j : Job) : Bool :=
  match j.stage with
  | .done _ _ => true
  | _ => false

inductive Phase where
  | marking (skips : List (Arg × Arg))
  | looping (l : Scheduler.State)
  | ended

/-- The step file, where the script is, and the executions of this invocation in
    the order in which they began. -/
structure State where
  file : Str
  phase : Phase
  jobs : List Job

/-- Where the loop is, when there is one. -/
def State.pc (s : State) : Option Scheduler.Pc :=
  match s.phase with
  | .looping l => some l.pc
  | _ => none

/-- What a write takes from elsewhere: the name of the log, the login name, the
    time, and the durations calculated. -/
structure Stamp where
  log : Arg
  user : Arg
  time : Int64
  duration : Int64
  delta : Int64

inductive Action where
  | mark (stamp : Stamp)
  | sched (vars : Vars) (a : Scheduler.Action)
  | record (i : Nat) (stamp : Stamp)
  | complete (i : Nat) (exit hook : UInt8) (stamp : Stamp)
  | hook (code : UInt8)
  | retry (vars : Vars)
  | leave
  | cut
  | resume (vars : Vars)

/-- A text in a shell variable, which cannot hold a NUL. -/
def toArg (s : Str) : Arg := ⟨s.filter fun c => c ≠ nul,by simp⟩

/-- The end step, which the loop handles itself. -/
def Job.isEnd (j : Job) : Bool := j.pid.isNone && j.entry.name = endName

def emptyArg : Arg := ⟨[],by simp⟩

/-- The write for a step that is to be skipped. -/
def markRecord (id name : Arg) (s : Stamp) : Record := ⟨id,name,0,0,0,emptyArg,s.user,some s.time,true⟩

/-- The write before a step is executed. -/
def startRecord (j : Job) (s : Stamp) : Record where
  id := decimalArg j.entry.id
  name := toArg j.entry.name
  exit := -1
  duration := -1
  delta := 0
  log := if j.isEnd then emptyArg else s.log
  user := s.user
  time := some s.time
  skip := false

/-- The exit code of a step after its hook. -/
def exitCode (exit hook : UInt8) : Nat := if hook.toNat = 125 then 125 else exit.toNat

/-- The write after a step was executed. -/
def finishRecord (j : Job) (exit hook : UInt8) (s : Stamp) : Record where
  id := decimalArg j.entry.id
  name := toArg j.entry.name
  exit := if j.isEnd then 0 else Int64.ofNat (exitCode exit hook)
  duration := s.duration
  delta := s.delta
  log := if j.isEnd then emptyArg else s.log
  user := s.user
  time := if j.isEnd then some s.time else none
  skip := false

/-- The return code of `step_exec_job`: failures of a regress suite are ignored. -/
def Setup.returnCode (b : Setup) (name : Str) (exit hook : UInt8) : Nat :=
  if b.regress && b.suite name then 0 else exitCode exit hook

/-- The hook of the end step is invoked by the exit trap. -/
def Setup.finished (b : Setup) (j : Job) (exit hook : UInt8) : Stage :=
  if j.isEnd then .done 0 none else .done (b.returnCode j.entry.name exit hook) (some hook.toNat)

/-- The lines of `robsd-step -L -o`. -/
def Setup.offset (b : Setup) (step : Str) : List Entry :=
  match strtonum step 1 intMax with
  | .ok n => b.steps.drop (n.toNat-1)
  | .error _ => []

/-- The loop over the steps from one on. -/
def Setup.from (b : Setup) (step : Str) (running : List Nat) : Phase := .looping ⟨b.offset step,[],running,.loop,[]⟩

/-- The marks are written before the first step is executed. -/
def Setup.mark (b : Setup) (skips : List (Arg × Arg)) : Phase :=
  if skips = [] then b.from (decimal 1) [] else .marking skips

/-- The test for a step that was skipped. -/
def Setup.skipped (b : Setup) (file : Str) (vars : Vars) (name : Str) : Bool := stepSkipped b.sh (toArg name) file vars

/-- The execution that a step of the loop starts. -/
def launched (l : Scheduler.State) : Scheduler.Action → List Job
  | .forked pid =>
    match l.pc with
    | .fork e => [⟨some pid,e,.begun⟩]
    | _ => []
  | .begin =>
    match l.pc with
    | .starting e => [⟨none,e,.begun⟩]
    | _ => []
  | _ => []

/-- A process exits when its job is done, and a step in the foreground ends with
    the return code of its job. -/
def ready (jobs : List Job) : Scheduler.Action → Bool
  | .exited pid => jobs.all fun j => j.pid ≠ some pid || j.isDone
  | .finish code =>
    match jobs.getLast? with
    | some ⟨none,_,.done c _⟩ => c = code
    | _ => false
  | _ => true

def step (b : Setup) (s : State) : Action → Option State
  | .mark stamp =>
    match s.phase with
    | .marking ((id,name) :: rest) =>
      -- The scripts run under set -e here.
      let w := stepWrite b.q (markRecord id name stamp).args s.file
      some { s with file := w.2, phase := if w.1 = 0 then b.mark rest else .ended }
    | _ => none
  | .sched vars a =>
    match s.phase with
    | .looping l =>
      if ready s.jobs a then
        (Scheduler.step b.ncpu b.reboot (b.skipped s.file vars) l a).map fun l' =>
          { s with phase := .looping l', jobs := s.jobs ++ launched l a }
      else none
    | _ => none
  | .record i stamp =>
    match s.jobs[i]? with
    | some j =>
      if j.stage = .begun then
        some { s with
          file := (stepWrite b.q (startRecord j stamp).args s.file).2
          jobs := s.jobs.set i { j with stage := .recorded } }
      else none
    | none => none
  | .complete i exit hook stamp =>
    match s.jobs[i]? with
    | some j =>
      if j.stage = .recorded then
        some { s with
          file := (stepWrite b.q (finishRecord j exit hook stamp).args s.file).2
          jobs := s.jobs.set i { j with stage := b.finished j exit hook } }
      else none
    | none => none
  | .hook code =>
    match s.phase,s.jobs.getLast? with
    | .looping ⟨_,_,_,.stopped c,_⟩,some ⟨none,e,.done d none⟩ =>
      if c ≠ 125 then some { s with jobs := s.jobs.set (s.jobs.length-1) ⟨none,e,.done d (some code.toNat)⟩ } else none
    | _,_ => none
  | .retry vars =>
    match s.phase with
    | .looping l =>
      if l.pc = .stopped 125 then
        match stepNext b.sh s.file vars with
        | some n => some { s with phase := b.from n l.running }
        | none => some { s with phase := .ended }
      else none
    | _ => none
  | .leave =>
    match s.phase with
    | .looping ⟨_,_,_,.stopped c,_⟩ => if c ≠ 125 then some { s with phase := .ended } else none
    | _ => none
  | .cut => some { s with phase := .ended, jobs := [] }
  | .resume vars =>
    match s.phase with
    | .ended =>
      if s.jobs.all Job.isDone then
        (stepNext b.sh s.file vars).map fun n =>
          { s with phase := if testEq n 1 then b.mark b.skips else b.from n [], jobs := [] }
      else none
    | _ => none

/-- A build from its first invocation on. -/
def build (b : Setup) : System State Action where
  start s := s = ⟨[],b.mark b.skips,[]⟩
  step := step b

/-- Whether `SKIP` names a step. -/
def Setup.skip (b : Setup) (name : Str) : Bool := b.skips.any fun p => p.2.str = (toArg name).str

/-- The names are plain words, and `step_id` knows those in `SKIP`. -/
structure Setup.Plain (b : Setup) : Prop where
  words : ∀ x ∈ b.steps, Word x.name
  named : ∀ x ∈ b.steps, x.name ≠ []
  skips : ∀ p ∈ b.skips, ∃ x ∈ b.steps, p = (decimalArg x.id,toArg x.name)
  short : (b.steps.length : Int) ≤ intMax

/-- So are the names of the log and the user. -/
structure Stamp.Plain (s : Stamp) : Prop where
  log : Word s.log.str
  user : Word s.user.str
  owned : s.user.str ≠ []

instance (s : Stamp) : Decidable s.Plain :=
  decidable_of_iff (Word s.log.str ∧ Word s.user.str ∧ s.user.str ≠ [])
    ⟨fun ⟨log,user,owned⟩ => ⟨log,user,owned⟩,fun ⟨log,user,owned⟩ => ⟨log,user,owned⟩⟩

def Action.Plain : Action → Prop
  | .mark stamp => stamp.Plain
  | .record _ stamp => stamp.Plain
  | .complete _ _ _ stamp => stamp.Plain
  | _ => True

instance (a : Action) : Decidable a.Plain := by
  cases a <;> unfold Action.Plain <;> infer_instance

/-- A build that can be run: it sorts by insertion, and its shell only assigns. -/
def plainSetup (ncpu : Nat) (steps : List Entry) (skips : List (Arg × Arg))
    (numbered : ∀ i (within : i < steps.length), steps[i].id = i+1) : Setup where
  q := Sorting.insertion Step.id
  sh := plainShell
  ncpu := ncpu
  reboot := false
  regress := false
  suite _ := false
  steps := steps
  skips := skips
  numbered := numbered

/-- What the samples pass. -/
def stamp : Stamp := ⟨toArg "log".toList,toArg "root".toList,1,1,0⟩

def noVars : Vars := fun _ => []

end Robsd.Execution
