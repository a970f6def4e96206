import Robsd.StepReadback

/-!
The step file as a finite map from numbers to entries. `Store` says what the
calls of `step_write` are for; every run of `robsd-step -W` from the empty file
does to the parsed rows what the map prescribes.
-/
namespace Robsd.StepMap
open Robsd.Strings
open Robsd.Decimal (strtonum)
open Robsd.Sorting (Qsort)
open Robsd.Steps
open Robsd.StepCommand
open Robsd.StepFormat
open Robsd.StepReading
open Robsd.StepUpdate
open Robsd.StepReadback

/-! ## The map -/

/-- What is known about one step. -/
structure Entry where
  name : Str
  exit : Int64
  duration : Int64
  delta : Int64
  log : Str
  user : Str
  time : Int64
  skip : Int64
  deriving DecidableEq, Repr

/-- What one write says about a step. -/
structure Given where
  name : Option Str := none
  exit : Option Int64 := none
  duration : Option Int64 := none
  delta : Option Int64 := none
  log : Option Str := none
  user : Option Str := none
  time : Option Int64 := none
  skip : Option Int64 := none
  deriving DecidableEq, Repr

/-- An entry takes the fields that are given and keeps the others. -/
def Entry.override (e : Entry) (g : Given) : Entry where
  name := g.name.getD e.name
  exit := g.exit.getD e.exit
  duration := g.duration.getD e.duration
  delta := g.delta.getD e.delta
  log := g.log.getD e.log
  user := g.user.getD e.user
  time := g.time.getD e.time
  skip := g.skip.getD e.skip

/-- A new entry requires all fields but those with a default. -/
def Given.create (g : Given) : Option Entry := do
  let name ← g.name
  let exit ← g.exit
  let duration ← g.duration
  let user ← g.user
  let time ← g.time
  return ⟨name,exit,duration,g.delta.getD 0,g.log.getD [],user,time,g.skip.getD 0⟩

abbrev Store := Int → Option Entry

/-- The entry after a write to it, none when the write is refused. -/
def written (old : Option Entry) (g : Given) : Option Entry :=
  match old with
  | some e => some (e.override g)
  | none => g.create

/-- A write to a number leaves all other numbers alone. -/
def Store.write (m : Store) (id : Int) (g : Given) : Option Store :=
  (written (m id) g).map fun e => Function.update m id (some e)

/-! ## Invocations -/

/-- The keys `step_write` passes. -/
inductive Key where
  | name
  | exit
  | duration
  | delta
  | log
  | user
  | time
  | skip
  deriving DecidableEq, Repr

def Key.field : Key → Field
  | .name => .name
  | .exit => .exit
  | .duration => .duration
  | .delta => .delta
  | .log => .log
  | .user => .user
  | .time => .time
  | .skip => .skip

/-- An argument `key=val`, the value of a string being one the format represents. -/
structure KeyVal where
  key : Key
  val : Str
  noNul : nul ∉ val
  plain : (definition key.field).type = .string → ',' ∉ val ∧ '\n' ∉ val ∧ '$' ∉ val
  filled : key = .name ∨ key = .user → val ≠ []

def KeyVal.arg (kv : KeyVal) : Arg where
  str := (definition kv.key.field).name ++ '=' :: kv.val
  noNul member := by
    rcases List.mem_append.mp member with key | val
    · exact (name_clean kv.key.field).2.2 key
    · rcases List.mem_cons.mp val with impossible | val
      · exact absurd impossible (by decide)
      · exact kv.noNul val

/-- The number a text denotes. -/
def number (val : Str) : Option Int64 := (strtonum val llongMin llongMax).toOption.map Int64.ofInt

/-- One argument more; a text that is no number is refused where one is wanted. -/
def Given.assign (g : Given) (kv : KeyVal) : Option Given :=
  match kv.key with
  | .name => some { g with name := some kv.val }
  | .log => some { g with log := some kv.val }
  | .user => some { g with user := some kv.val }
  | .exit => (number kv.val).map fun n => { g with exit := some n }
  | .duration => (number kv.val).map fun n => { g with duration := some n }
  | .delta => (number kv.val).map fun n => { g with delta := some n }
  | .time => (number kv.val).map fun n => { g with time := some n }
  | .skip => (number kv.val).map fun n => { g with skip := some n }

/-- What the arguments say together, later ones prevailing. -/
def given (kvs : List KeyVal) : Option Given := kvs.foldlM Given.assign {}

/-- One run of `robsd-step -W -i id -- key=val ...`. -/
structure Invocation where
  id : Arg
  kvs : List KeyVal

/-- What an invocation does to the map, with its exit code. -/
def Store.apply (m : Store) (inv : Invocation) : Nat × Store :=
  match parseId inv.id.str with
  | .error _ => (1,m)
  | .ok id =>
    if id = 0 ∨ inv.kvs = [] then (1,m)
    else match (given inv.kvs).bind (m.write id) with
      | some m' => (0,m')
      | none => (1,m)

/-- An invocation that succeeds writes one entry. -/
theorem Store.apply_succeeds {m : Store} {inv : Invocation} (success : (m.apply inv).1 = 0) :
    ∃ id g e, parseId inv.id.str = .ok id ∧ id ≠ 0 ∧ given inv.kvs = some g ∧ written (m id) g = some e ∧
      (m.apply inv).2 = Function.update m id (some e) := by
  unfold Store.apply at success ⊢
  split at success
  · cases success
  · next id identified =>
    split at success
    · cases success
    · next usage =>
      rw [not_or] at usage
      split at success
      · next m' accepted =>
        obtain ⟨g,all,wrote⟩ := Option.bind_eq_some_iff.mp accepted
        obtain ⟨e,taken,rfl⟩ := Option.map_eq_some_iff.mp wrote
        exact ⟨id,g,e,identified,usage.1,all,taken,by rw [if_neg (not_or.mpr usage)]⟩
      · cases success

/-- What an invocation does to the file. -/
def apply (q : Qsort Step.id) (text : Str) (inv : Invocation) : Nat × Str :=
  robsdStepWrite q [.i inv.id] (inv.kvs.map KeyVal.arg) text

/-- The exit codes of a run, and the map after it. -/
def Store.run (invs : List Invocation) : List Nat × Store :=
  invs.foldl (fun s inv => (s.1 ++ [(s.2.apply inv).1],(s.2.apply inv).2)) ([],fun _ => none)

/-- The exit codes of a run from the empty file, and the file after it. -/
def run (q : Qsort Step.id) (invs : List Invocation) : List Nat × Str :=
  invs.foldl (fun s inv => (s.1 ++ [(apply q s.2 inv).1],(apply q s.2 inv).2)) ([],[])

/-! ## Rows and entries -/

def Row.entry (r : Row) : Entry := ⟨r.name,r.exit,r.duration,r.delta,r.log,r.user,r.time,r.skip⟩

/-- The value given for a field. -/
def Given.field (g : Given) : Field → Option StepField
  | .step => none
  | .name => g.name.map .string
  | .exit => g.exit.map .integer
  | .duration => g.duration.map .integer
  | .delta => g.delta.map .integer
  | .log => g.log.map .string
  | .user => g.user.map .string
  | .time => g.time.map .integer
  | .skip => g.skip.map .integer

/-- The step with what is given in place of its fields. -/
def Given.on (g : Given) (st : Step) : Step := ⟨fun f => (g.field f).getD (st.fields f)⟩

private theorem set_field {g g' : Given} {st : Step} {kv : KeyVal} {v : StepField}
    (valued : fieldValue (definition kv.key.field).type kv.val = .ok v)
    (shape : ∀ f, g'.field f = if f = kv.key.field then some v else g.field f) :
    stepSetKeyval (g.on st) kv.arg.str = .ok (g'.on st) := by
  have split : strchr '=' kv.arg.str = some ((definition kv.key.field).name,kv.val) :=
    strchr_append (by cases kv.key <;> decide) _
  refine stepSetKeyval_ok_iff.mpr ⟨kv.key.field,kv.val,v,split,valued,?_⟩
  simp only [Given.on]
  congr 1
  funext f
  by_cases same : f = kv.key.field
  · simp [shape,same]
  · simp [shape,same]

private theorem refused_field {st : Step} {kv : KeyVal}
    (refused : ∀ v, fieldValue (definition kv.key.field).type kv.val ≠ .ok v) :
    ∃ e, stepSetKeyval st kv.arg.str = .error e := by
  have split : strchr '=' kv.arg.str = some ((definition kv.key.field).name,kv.val) :=
    strchr_append (by cases kv.key <;> decide) _
  cases run : stepSetKeyval st kv.arg.str with
  | error e => exact ⟨e,rfl⟩
  | ok st' =>
    obtain ⟨f,val,v,split',valued,_⟩ := stepSetKeyval_ok_iff.mp run
    simp only [split,Option.some.injEq,Prod.mk.injEq] at split'
    obtain ⟨same,rfl⟩ := split'
    rw [← definition_name_injective same] at valued
    exact absurd valued (refused v)

private theorem number_value (val : Str) :
    match number val with
    | some n => fieldValue .integer val = .ok (.integer n)
    | none => ∀ v, fieldValue .integer val ≠ .ok v := by
  unfold number fieldValue
  cases strtonum val llongMin llongMax <;> simp [Except.toOption]

/-- One argument does to the step what it does to what is given. -/
theorem assign_step (g : Given) (kv : KeyVal) (st : Step) :
    match g.assign kv with
    | some g' => stepSetKeyval (g.on st) kv.arg.str = .ok (g'.on st)
    | none => ∃ e, stepSetKeyval (g.on st) kv.arg.str = .error e := by
  have value := number_value kv.val
  cases key : kv.key <;> simp only [Given.assign,key]
  case name | log | user =>
    apply set_field (v := .string kv.val) (by rw [key]; rfl)
    intro f
    rw [key]
    cases f <;> rfl
  all_goals
    cases read : number kv.val with
    | some n =>
      rw [read] at value
      apply set_field (v := .integer n) (by rw [key]; exact value)
      intro f
      rw [key]
      cases f <;> rfl
    | none =>
      rw [read] at value
      exact refused_field (by rw [key]; exact value)

/-- So do all of them. -/
theorem given_step (kvs : List KeyVal) (st : Step) :
    match given kvs with
    | some g => setKeyvals (kvs.map KeyVal.arg) st = .ok (g.on st)
    | none => ∃ e, setKeyvals (kvs.map KeyVal.arg) st = .error e := by
  have fold : ∀ (kvs : List KeyVal) (g : Given),
      match kvs.foldlM Given.assign g with
      | some g' => setKeyvals (kvs.map KeyVal.arg) (g.on st) = .ok (g'.on st)
      | none => ∃ e, setKeyvals (kvs.map KeyVal.arg) (g.on st) = .error e := by
    intro kvs
    induction kvs with
    | nil => intro g; rfl
    | cons kv kvs ih =>
      intro g
      have here := assign_step g kv st
      simp only [List.foldlM_cons,List.map_cons,setKeyvals]
      cases one : g.assign kv with
      | none =>
        rw [one] at here
        obtain ⟨e,failed⟩ := here
        exact ⟨e,by rw [failed]; rfl⟩
      | some g' =>
        rw [one] at here
        simp only [here,Except.bind]
        exact ih g'
  have start : Given.on {} st = st := by
    simp only [Given.on]
    cases st
    congr 1
    funext f
    cases f <;> rfl
  have all := fold kvs {}
  rw [start] at all
  exact all

/-- A row with what is given. -/
def Row.on (g : Given) (r : Row) : Row where
  step := r.step
  name := g.name.getD r.name
  exit := g.exit.getD r.exit
  duration := g.duration.getD r.duration
  delta := g.delta.getD r.delta
  log := g.log.getD r.log
  user := g.user.getD r.user
  time := g.time.getD r.time
  skip := g.skip.getD r.skip

theorem on_toStep (g : Given) (r : Row) : (Row.on g r).toStep = g.on r.toStep := by
  simp only [Row.toStep,Given.on]
  congr 1
  funext f
  cases f <;> first | rfl | exact (Option.getD_map _ _ _).symm

/-- The row of a new entry. -/
def Entry.row (id : Int) (e : Entry) : Row :=
  ⟨Int64.ofInt id,e.name,e.exit,e.duration,e.delta,e.log,e.user,e.time,e.skip⟩

/-- A new step is complete exactly when an entry can be created. -/
theorem on_alloc (g : Given) (id : Int) :
    match g.create with
    | some e => g.on ⟨Function.update initial.fields .step (.integer (Int64.ofInt id))⟩ = (Entry.row id e).toStep
    | none => ∃ f, (g.on ⟨Function.update initial.fields .step (.integer (Int64.ofInt id))⟩).fields f = .unknown := by
  obtain ⟨name,exit,duration,delta,log,user,time,skip⟩ := g
  cases name with
  | none => exact ⟨.name,rfl⟩
  | some name =>
    cases exit with
    | none => exact ⟨.exit,rfl⟩
    | some exit =>
      cases duration with
      | none => exact ⟨.duration,rfl⟩
      | some duration =>
        cases user with
        | none => exact ⟨.user,rfl⟩
        | some user =>
          cases time with
          | none => exact ⟨.time,rfl⟩
          | some time =>
            show Given.on _ _ = _
            simp only [Given.on,Entry.row,Row.toStep]
            congr 1
            funext f
            cases f <;> first | rfl | exact Option.getD_map _ _ _

/-- Strings that are given are ones the format represents. -/
structure Given.Plain (g : Given) : Prop where
  name : ∀ s, g.name = some s → Clean s ∧ '$' ∉ s ∧ s ≠ []
  log : ∀ s, g.log = some s → Clean s ∧ '$' ∉ s
  user : ∀ s, g.user = some s → Clean s ∧ '$' ∉ s ∧ s ≠ []

theorem assign_plain {g g' : Given} {kv : KeyVal} (plain : g.Plain) (assigned : g.assign kv = some g') : g'.Plain := by
  obtain ⟨name,log,user⟩ := plain
  have string : (definition kv.key.field).type = .string → Clean kv.val ∧ '$' ∉ kv.val := fun type =>
    ⟨⟨(kv.plain type).1,(kv.plain type).2.1,kv.noNul⟩,(kv.plain type).2.2⟩
  have filled := kv.filled
  unfold Given.assign at assigned
  cases key : kv.key <;> simp only [key,Option.some.injEq,Option.map_eq_some_iff] at assigned
  case name =>
    subst assigned
    rw [key] at string filled
    refine ⟨?_,log,user⟩
    rintro s ⟨⟩
    exact ⟨(string rfl).1,(string rfl).2,filled (.inl rfl)⟩
  case log =>
    subst assigned
    rw [key] at string
    refine ⟨name,?_,user⟩
    rintro s ⟨⟩
    exact string rfl
  case user =>
    subst assigned
    rw [key] at string filled
    refine ⟨name,log,?_⟩
    rintro s ⟨⟩
    exact ⟨(string rfl).1,(string rfl).2,filled (.inr rfl)⟩
  all_goals
    obtain ⟨_,_,rfl⟩ := assigned
    exact ⟨name,log,user⟩

theorem given_plain {kvs : List KeyVal} {g : Given} (all : given kvs = some g) : g.Plain := by
  have fold : ∀ (kvs : List KeyVal) (g₀ : Given), g₀.Plain → kvs.foldlM Given.assign g₀ = some g → g.Plain := by
    intro kvs
    induction kvs with
    | nil =>
      intro g₀ plain same
      cases same
      exact plain
    | cons kv kvs ih =>
      intro g₀ plain run
      rw [List.foldlM_cons] at run
      obtain ⟨g₁,one,rest⟩ := Option.bind_eq_some_iff.mp run
      exact ih g₁ (assign_plain plain one) rest
  exact fold kvs {} ⟨nofun,nofun,nofun⟩ all

theorem on_representable {g : Given} {r : Row} (plain : g.Plain) (here : r.Representable) :
    (Row.on g r).Representable := by
  have name : Clean (Row.on g r).name ∧ '$' ∉ (Row.on g r).name ∧ (Row.on g r).name ≠ [] := by
    cases last : g.name with
    | none => simpa [Row.on,last] using ⟨here.name,here.namePlain,here.named⟩
    | some s => simpa [Row.on,last] using plain.name s last
  have log : Clean (Row.on g r).log ∧ '$' ∉ (Row.on g r).log := by
    cases last : g.log with
    | none => simpa [Row.on,last] using ⟨here.log,here.logPlain⟩
    | some s => simpa [Row.on,last] using plain.log s last
  have user : Clean (Row.on g r).user ∧ '$' ∉ (Row.on g r).user ∧ (Row.on g r).user ≠ [] := by
    cases last : g.user with
    | none => simpa [Row.on,last] using ⟨here.user,here.userPlain,here.owned⟩
    | some s => simpa [Row.on,last] using plain.user s last
  exact ⟨⟨⟨name.1,log.1,user.1⟩,name.2.2,user.2.2⟩,name.2.1,log.2,user.2.1⟩

theorem create_representable {g : Given} {e : Entry} (id : Int) (plain : g.Plain) (created : g.create = some e) :
    (Entry.row id e).Representable := by
  simp only [Given.create,bind,Option.bind_eq_some_iff] at created
  obtain ⟨name,named,exit,_,duration,_,user,owned,time,_,same⟩ := created
  cases same
  obtain ⟨name,namePlain,filled⟩ := plain.name name named
  obtain ⟨user,userPlain,owned⟩ := plain.user user owned
  have log : Clean (g.log.getD []) ∧ '$' ∉ g.log.getD [] := by
    cases last : g.log with
    | none => simpa [last] using (show Clean [] from by decide)
    | some s => simpa [last] using plain.log s last
  exact ⟨⟨⟨name,log.1,user⟩,filled,owned⟩,namePlain,log.2,userPlain⟩

/-! ## One write -/

/-- The rows are the list of the map, in ascending order. -/
structure Represents (rows : List Row) (m : Store) : Prop where
  ordered : rows.Pairwise fun r r' => r.id < r'.id
  representable : ∀ r ∈ rows, r.Representable
  entries : ∀ id e, m id = some e ↔ ∃ r ∈ rows, r.id = id ∧ Row.entry r = e

theorem mem_others {rows : List Row} (ordered : rows.Pairwise fun r r' => r.id < r'.id) (id : Int) (r : Row) :
    r ∈ others id rows ↔ r ∈ rows ∧ r.id ≠ id := by
  unfold others
  induction ordered with
  | nil => simp
  | @cons s rows above _ ih =>
    by_cases same : s.id = id
    · rw [List.eraseP_cons_of_pos (by simpa using same)]
      constructor
      · intro member
        have := above r member
        exact ⟨by simp [member],by omega⟩
      · rintro ⟨member,different⟩
        rcases List.mem_cons.mp member with rfl | later
        · exact absurd same different
        · exact later
    · rw [List.eraseP_cons_of_neg (by simpa using same),List.mem_cons,ih,List.mem_cons]
      constructor
      · rintro (rfl | ⟨member,different⟩)
        · exact ⟨.inl rfl,same⟩
        · exact ⟨.inr member,different⟩
      · rintro ⟨rfl | member,different⟩
        · exact .inl rfl
        · exact .inr ⟨member,different⟩

/-- Replacing or adding one row is the update of the map at its number. -/
theorem represents_write {rows rows' : List Row} {m : Store} {w : Row} (before : Represents rows m)
    (representable : w.Representable) (perm : rows'.Perm (w :: others w.id rows))
    (ordered : rows'.Pairwise fun r r' => r.id < r'.id) :
    Represents rows' (Function.update m w.id (some (Row.entry w))) := by
  refine ⟨ordered,?_,?_⟩
  · intro r member
    rcases List.mem_cons.mp (perm.mem_iff.mp member) with rfl | other
    · exact representable
    · exact before.representable r (List.mem_of_mem_eraseP other)
  · intro id e
    by_cases same : id = w.id
    · subst same
      simp only [Function.update_self,Option.some.injEq]
      constructor
      · rintro rfl
        exact ⟨w,perm.mem_iff.mpr (by simp),rfl,rfl⟩
      · rintro ⟨r,member,numbered,rfl⟩
        rcases List.mem_cons.mp (perm.mem_iff.mp member) with rfl | other
        · rfl
        · exact absurd numbered ((mem_others before.ordered w.id r).mp other).2
    · rw [Function.update_of_ne same,before.entries]
      constructor
      · rintro ⟨r,member,numbered,shown⟩
        have other := (mem_others before.ordered w.id r).mpr ⟨member,by rw [numbered]; exact same⟩
        exact ⟨r,perm.mem_iff.mpr (by simp [other]),numbered,shown⟩
      · rintro ⟨r,member,numbered,shown⟩
        rcases List.mem_cons.mp (perm.mem_iff.mp member) with rfl | other
        · exact absurd numbered.symm same
        · exact ⟨r,((mem_others before.ordered w.id r).mp other).1,numbered,shown⟩

/-- The numbers stay distinct. -/
theorem distinct_write {rows rows' : List Row} {m : Store} {w : Row} (before : Represents rows m)
    (perm : rows'.Perm (w :: others w.id rows)) : ((rows'.map Row.toStep).map Step.id).Nodup := by
  have numbers : (rows'.map Row.id).Perm (w.id :: (others w.id rows).map Row.id) := perm.map Row.id
  have tail : (others w.id rows).Pairwise fun r r' => r.id ≠ r'.id :=
    (before.ordered.sublist List.eraseP_sublist).imp fun lt => ne_of_lt lt
  rw [List.map_map,show Step.id ∘ Row.toStep = Row.id from rfl,numbers.nodup_iff,List.nodup_cons]
  refine ⟨?_,List.pairwise_map.mpr tail⟩
  intro member
  obtain ⟨r,listed,same⟩ := List.mem_map.mp member
  exact ((mem_others before.ordered w.id r).mp listed).2 same

/-- The file parses into the list of the map. -/
def ListOf (text : Str) (m : Store) : Prop :=
  ∃ (sf : StepFile) (rows : List Row), stepsParse text = .ok sf ∧ sf.steps = rows.map Row.toStep ∧ Represents rows m

theorem find_entry {rows : List Row} {m : Store} (here : Represents rows m) (id : Int) :
    m id = (rows.find? (·.id = id)).map Row.entry := by
  cases found : rows.find? (·.id = id) with
  | some r => exact (here.entries id _).mpr ⟨r,List.mem_of_find?_eq_some found,by simpa using List.find?_some found,rfl⟩
  | none =>
    cases entry : m id with
    | none => rfl
    | some e =>
      obtain ⟨r,member,numbered,_⟩ := (here.entries id e).mp entry
      exact absurd numbered (by simpa using List.find?_eq_none.mp found r member)

/-- A write the map accepts changes one row or adds one. -/
theorem update_accepts {rows : List Row} {m : Store} (here : Represents rows m) {id : Int} (low : llongMin ≤ id)
    (high : id ≤ llongMax) {kvs : List KeyVal} {g : Given} {e : Entry} (all : given kvs = some g)
    (accepted : written (m id) g = some e) :
    ∃ (w : Row) (rows' : List Row), update id (kvs.map KeyVal.arg) (rows.map Row.toStep) = .ok (rows'.map Row.toStep) ∧
      rows'.Perm (w :: others id rows) ∧ w.id = id ∧ Row.entry w = e ∧ w.Representable := by
  have plain := given_plain all
  have assigned := fun st => given_step kvs st
  simp only [all] at assigned
  rw [find_entry here] at accepted
  cases found : rows.find? (·.id = id) with
  | some r =>
    rw [found] at accepted
    obtain ⟨before,after,rest,run⟩ := update_found (kvs.map KeyVal.arg) found
    rw [assigned,← on_toStep] at run
    refine ⟨Row.on g r,before ++ Row.on g r :: after,?_,?_,?_,Option.some.inj accepted,
      on_representable plain (here.representable r (List.mem_of_find?_eq_some found))⟩
    · rw [run]
      simp [Except.map]
    · rw [rest]
      exact List.perm_middle
    · have numbered : r.id = id := by simpa using List.find?_some found
      exact numbered
  | none =>
    rw [found] at accepted
    have created : g.create = some e := accepted
    have alloc := on_alloc g id
    simp only [created] at alloc
    refine ⟨Entry.row id e,rows ++ [Entry.row id e],?_,?_,toInt_ofInt low high,rfl,
      create_representable id plain created⟩
    · rw [update_new _ found,stepAlloc_eq]
      simp only [Except.bind,assigned,alloc,Except.map,List.map_append,List.map_cons,List.map_nil]
    · have rest : others id rows = rows := List.eraseP_of_forall_not (List.find?_eq_none.mp found)
      rw [rest]
      exact List.perm_append_singleton _ _

/-- A write the map refuses is refused, at the latest when the file would be written. -/
theorem update_refuses (q : Qsort Step.id) {rows : List Row} {m : Store} (here : Represents rows m) {id : Int}
    {kvs : List KeyVal} (refused : (given kvs).bind (fun g => written (m id) g) = none) {steps : List Step}
    (updated : update id (kvs.map KeyVal.arg) (rows.map Row.toStep) = .ok steps) (out : Str) :
    stepsWrite q steps ≠ .ok out := by
  have assigned := fun st => given_step kvs st
  rw [find_entry here] at refused
  cases all : given kvs with
  | none =>
    simp only [all] at assigned
    exfalso
    cases found : rows.find? (·.id = id) with
    | some r =>
      obtain ⟨_,_,_,run⟩ := update_found (kvs.map KeyVal.arg) found
      obtain ⟨e,failed⟩ := assigned r.toStep
      rw [run,failed] at updated
      cases updated
    | none =>
      obtain ⟨e,failed⟩ := assigned ⟨Function.update initial.fields .step (.integer (Int64.ofInt id))⟩
      rw [update_new _ found,stepAlloc_eq,Except.bind,failed] at updated
      cases updated
  | some g =>
    simp only [all,Option.bind_some] at assigned refused
    cases found : rows.find? (·.id = id) with
    | some r => rw [found] at refused; cases refused
    | none =>
      rw [found] at refused
      have alloc := on_alloc g id
      simp only [show g.create = none from refused] at alloc
      obtain ⟨f,unknown⟩ := alloc
      rw [update_new _ found,stepAlloc_eq,Except.bind,assigned] at updated
      cases updated
      intro done
      exact stepsWrite_set done _ (by simp) f unknown

/-- The file stays the list of the map, and the exit code says which of the two
    happened. -/
theorem apply_refines (q : Qsort Step.id) {text : Str} {m : Store} (here : ListOf text m) (inv : Invocation) :
    (apply q text inv).1 = (m.apply inv).1 ∧ ListOf (apply q text inv).2 (m.apply inv).2 := by
  obtain ⟨sf,rows,parsed,shape,represents⟩ := here
  have refuse : (∀ out, apply q text inv ≠ (0,out)) → apply q text inv = (1,text) := fun never =>
    robsdStepWrite_failed fun zero => never _ (Prod.ext zero rfl)
  have stay : ListOf text m := ⟨sf,rows,parsed,shape,represents⟩
  unfold Store.apply
  cases identified : parseId inv.id.str with
  | error e =>
    have never : ∀ out, apply q text inv ≠ (0,out) := by
      intro out
      simp [apply,robsdStepWrite,parsed,actionWrite,writeOptions,identified,bind,Except.bind]
    rw [refuse never]
    exact ⟨rfl,stay⟩
  | ok id =>
    obtain ⟨low,high⟩ := parseId_bounds identified
    have success := @robsdStepWrite_ok q _ _ (inv.kvs.map KeyVal.arg) _ _ parsed identified
    dsimp only
    split
    · next usage =>
      have never : ∀ out, apply q text inv ≠ (0,out) := by
        intro out done
        obtain ⟨nonempty,nonzero,_⟩ := (success out).mp done
        rcases usage with zero | empty
        · exact nonzero zero
        · exact nonempty (by simp [empty])
      rw [refuse never]
      exact ⟨rfl,stay⟩
    · next usage =>
      rw [not_or] at usage
      split
      · next m' accepted =>
        obtain ⟨g,all,wrote⟩ := Option.bind_eq_some_iff.mp accepted
        obtain ⟨e,taken,rfl⟩ := Option.map_eq_some_iff.mp wrote
        obtain ⟨w,rows',updated,perm,rfl,rfl,representable⟩ := update_accepts represents low high all taken
        obtain ⟨sorted,order,same⟩ := sort_rows q rows'
        have kept : ∀ r ∈ sorted, r.Representable := by
          intro r member
          rcases List.mem_cons.mp ((same.trans perm).mem_iff.mp member) with rfl | other
          · exact representable
          · exact represents.representable r (List.mem_of_mem_eraseP other)
        have distinct := distinct_write represents perm
        have ascending := Sorting.sort_strict q distinct
        rw [order,List.pairwise_map] at ascending
        have done : apply q text inv = (0,file sorted) :=
          (success _).mpr ⟨by simpa using usage.2,usage.1,_,shape ▸ updated,stepsWrite_representable q order kept⟩
        rw [done]
        exact ⟨rfl,_,sorted,stepsParse_file fun r member => (kept r member).toReadable,rfl,
          represents_write represents representable (same.trans perm) ascending⟩
      · next refused =>
        have never : ∀ out, apply q text inv ≠ (0,out) := by
          intro out done
          obtain ⟨_,_,steps,updated,wrote⟩ := (success out).mp done
          rw [shape] at updated
          refine update_refuses q represents ?_ updated out wrote
          cases all : given inv.kvs with
          | none => rfl
          | some g =>
            simp only [all,Option.bind_some,Store.write,Option.map_eq_none_iff] at refused
            exact refused
        rw [refuse never]
        exact ⟨rfl,stay⟩

theorem listOf_nil : ListOf [] fun _ => none := ⟨_,[],stepsParse_nil,rfl,.nil,by simp,by simp⟩

/-- Every run of writes, succeeding or failing, leaves the list of the map in the
    file and exits with the codes of the map. -/
theorem runs_refine (q : Qsort Step.id) (invs : List Invocation) :
    (run q invs).1 = (Store.run invs).1 ∧ ListOf (run q invs).2 (Store.run invs).2 := by
  refine List.foldl_rel (r := fun (s : List Nat × Str) (s' : List Nat × Store) =>
    s.1 = s'.1 ∧ ListOf s.2 s'.2) ⟨rfl,listOf_nil⟩ ?_
  rintro inv _ ⟨codes,text⟩ ⟨codes',m⟩ ⟨rfl,here⟩
  obtain ⟨code,next⟩ := apply_refines q here inv
  exact ⟨by simp [code],next⟩

end Robsd.StepMap
