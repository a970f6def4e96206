import Robsd.StepShell

/-!
`step_write` with plain words: what it passes on, and what that does to the map
the file represents.
-/
namespace Robsd.StepRecord
open Robsd.Strings
open Robsd.Decimal (decimal decimal_absent strtonum strtonum_decimal)
open Robsd.Shell
open Robsd.Sorting (Qsort)
open Robsd.Steps
open Robsd.StepCommand
open Robsd.StepFormat
open Robsd.StepReading
open Robsd.StepReadback (toInt_ofInt parseId_bounds)
open Robsd.StepMap
open Robsd.StepShell

/-- Arguments that reach `robsd-step` as they are, and that the file represents. -/
structure Plain (w : StepWrite) : Prop where
  name : Word w.name.str
  exit : Word w.exit.str
  duration : Word w.duration.str
  delta : Word w.delta.str
  log : Word w.log.str
  user : Word w.user.str
  time : ∀ t, w.time = some t → Word t.str
  numbered : w.id.str ≠ []
  named : w.name.str ≠ []
  owned : w.user.str ≠ []
  exits : w.exit.str ≠ []
  lasts : w.duration.str ≠ []

/-- An argument with a plain word. -/
def wordKeyVal (key : Key) (val : Arg) (word : Word val.str)
    (filled : key = .name ∨ key = .user → val.str ≠ []) : KeyVal where
  key := key
  val := val.str
  noNul := val.noNul
  plain _ := ⟨word_absent word (by decide),word_absent word (by decide),word_absent word (by decide)⟩
  filled := filled

/-- The same for an argument that is left out when it is empty. -/
def optionalKeyVal (key : Key) (val : Arg) (word : Word val.str) (optional : ¬ (key = .name ∨ key = .user)) :
    List KeyVal :=
  if val.str = [] then [] else [wordKeyVal key val word fun required => absurd required optional]

theorem unquoted_word {key : Key} {val : Arg} (word : Word val.str) (optional : ¬ (key = .name ∨ key = .user)) :
    unquoted key.field val = (optionalKeyVal key val word optional).map KeyVal.arg := by
  unfold unquoted optionalKeyVal
  split
  · rfl
  · have solid : ∀ c ∈ (keyval key.field val).str, blank c = false := by
      have name : ∀ c ∈ (definition key.field).name, blank c = false := by cases key <;> decide
      intro c member
      rcases List.mem_append.mp member with inName | rest
      · exact name c inName
      · rcases List.mem_cons.mp rest with rfl | inValue
        · decide
        · have here := word c inValue
          by_contra isBlank
          rw [Bool.not_eq_false] at isBlank
          simp only [blank,Bool.or_eq_true,decide_eq_true_eq] at isBlank
          rcases isBlank with (rfl | rfl) | rfl <;> exact absurd here (by decide)
    have field := splitFields_solid (s := (keyval key.field val).str) (by simp [keyval]) solid
    refine List.map_injective_iff.mpr ?_ (?_ : List.map Arg.str _ = List.map Arg.str _)
    · intro a b same
      cases a
      cases b
      congr 1
    · rw [List.map_map]
      exact (List.attach_map_subtype_val _).trans field

/-- What `step_write` passes on, as an invocation. -/
def StepWrite.invocation (w : StepWrite) (plain : Plain w) : Invocation where
  id := w.id
  kvs := [wordKeyVal .name w.name plain.name fun _ => plain.named,wordKeyVal .exit w.exit plain.exit (by simp),
      wordKeyVal .duration w.duration plain.duration (by simp)] ++
    optionalKeyVal .delta w.delta plain.delta (by simp) ++ optionalKeyVal .log w.log plain.log (by simp) ++
    [wordKeyVal .user w.user plain.user fun _ => plain.owned] ++
    (w.time.pmap (fun t word => optionalKeyVal .time t word (by simp)) plain.time).getD [] ++
    [wordKeyVal .skip (decimalArg (if w.skip then 1 else 0)) (word_decimal _) (by simp)]

theorem stepWrite_apply (q : Qsort Step.id) {w : StepWrite} (plain : Plain w) (file : Str) :
    stepWrite q w file = apply q file (StepWrite.invocation w plain) := by
  have given : ¬ (w.id.str = [] ∨ w.name.str = [] ∨ w.exit.str = [] ∨ w.duration.str = []) := by
    simp [plain.numbered,plain.named,plain.exits,plain.lasts]
  have time : (w.time.map (unquoted .time)).getD [] =
      ((w.time.pmap (fun t word => optionalKeyVal .time t word (by simp)) plain.time).getD []).map KeyVal.arg := by
    obtain ⟨id,name,exit,duration,delta,log,user,time,skip⟩ := w
    cases time with
    | none => rfl
    | some t => exact @unquoted_word .time t (plain.time t rfl) (by simp)
  have delta := @unquoted_word .delta _ plain.delta (by simp)
  have log := @unquoted_word .log _ plain.log (by simp)
  simp only [stepWrite,given,↓reduceIte,apply,StepWrite.kvs,StepWrite.invocation,time]
  rw [show Field.delta = Key.delta.field from rfl,show Field.log = Key.log.field from rfl,delta,log]
  simp only [List.map_append,List.map_cons,List.map_nil]
  rfl

/-- The number in an argument that is left out when it is empty. -/
def optionalNumber (val : Str) : Option (Option Int64) := if val = [] then some none else (number val).map some

/-- What a call of `step_write` says about the step. -/
def StepWrite.given (w : StepWrite) : Option Given := do
  let exit ← number w.exit.str
  let duration ← number w.duration.str
  let delta ← optionalNumber w.delta.str
  let time ← (w.time.map fun t => optionalNumber t.str).getD (some none)
  return {
    name := some w.name.str
    exit := some exit
    duration := some duration
    delta := delta
    log := if w.log.str = [] then none else some w.log.str
    user := some w.user.str
    time := time
    skip := some (if w.skip then 1 else 0) }

/-- An optional number is assigned only where it is given. -/
private theorem fold_delta {val : Arg} (word : Word val.str) {g : Given} (unset : g.delta = none) :
    (optionalKeyVal .delta val word (by simp)).foldlM Given.assign g =
      (optionalNumber val.str).map fun n => { g with delta := n } := by
  by_cases empty : val.str = []
  · simp [optionalKeyVal,optionalNumber,empty,← unset]
  · simp [optionalKeyVal,optionalNumber,empty,Given.assign,wordKeyVal,Function.comp_def]

private theorem fold_time {time : Option Arg} (words : ∀ t, time = some t → Word t.str) {g : Given}
    (unset : g.time = none) :
    ((time.pmap (fun t word => optionalKeyVal .time t word (by simp)) words).getD []).foldlM Given.assign g =
      ((time.map fun t => optionalNumber t.str).getD (some none)).map fun n => { g with time := n } := by
  cases time with
  | none => simp [← unset]
  | some t =>
    by_cases empty : t.str = []
    · simp [optionalKeyVal,optionalNumber,empty,← unset]
    · simp [optionalKeyVal,optionalNumber,empty,Given.assign,wordKeyVal,Function.comp_def]

private theorem fold_log {val : Arg} (word : Word val.str) {g : Given} (unset : g.log = none) :
    (optionalKeyVal .log val word (by simp)).foldlM Given.assign g =
      some { g with log := if val.str = [] then none else some val.str } := by
  by_cases empty : val.str = []
  · simp [optionalKeyVal,empty,← unset]
  · simp [optionalKeyVal,empty,Given.assign,wordKeyVal]

theorem given_invocation {w : StepWrite} (plain : Plain w) :
    given (StepWrite.invocation w plain).kvs = StepWrite.given w := by
  have skip : number (decimal (if w.skip then 1 else 0)) = some (if w.skip then 1 else 0) := by
    cases w.skip <;> decide
  simp only [given,StepWrite.invocation,List.foldlM_append,List.foldlM_cons,List.foldlM_nil,StepWrite.given]
  cases exit : number w.exit.str with
  | none => simp [Given.assign,wordKeyVal,exit]
  | some e =>
    cases duration : number w.duration.str with
    | none => simp [Given.assign,wordKeyVal,exit,duration]
    | some d =>
      simp only [Given.assign,wordKeyVal,exit,duration,Option.map_some,Option.bind_eq_bind,Option.bind_some,pure]
      rw [fold_delta plain.delta rfl]
      cases optionalNumber w.delta.str with
      | none => rfl
      | some delta =>
        simp only [Option.map_some,Option.bind_some]
        rw [fold_log plain.log rfl]
        simp only [Option.bind_some]
        rw [fold_time plain.time rfl]
        cases (w.time.map fun t => optionalNumber t.str).getD (some none) with
        | none => rfl
        | some time =>
          simp only [Option.map_some,Option.bind_some,decimalArg]
          rw [skip]
          rfl

/-- What a call with plain words does, in terms of the map. -/
theorem stepWrite_refines (q : Qsort Step.id) {w : StepWrite} (plain : Plain w) {file : Str} {m : Store}
    (here : ListOf file m) :
    (stepWrite q w file).1 = (m.apply (StepWrite.invocation w plain)).1 ∧
      ListOf (stepWrite q w file).2 (m.apply (StepWrite.invocation w plain)).2 := by
  rw [stepWrite_apply q plain]
  exact apply_refines q here _

/-- A successful call writes to a number other than zero. -/
theorem stepWrite_succeeds (q : Qsort Step.id) {w : StepWrite} (plain : Plain w) {file : Str} {m : Store}
    (here : ListOf file m) (success : (stepWrite q w file).1 = 0) :
    ∃ id g e, parseId w.id.str = .ok id ∧ id ≠ 0 ∧ StepWrite.given w = some g ∧ written (m id) g = some e ∧
      ListOf (stepWrite q w file).2 (Function.update m id (some e)) := by
  obtain ⟨code,listed⟩ := stepWrite_refines q plain here
  obtain ⟨id,g,e,identified,nonzero,all,taken,after⟩ := Store.apply_succeeds (code ▸ success)
  exact ⟨id,g,e,identified,nonzero,(given_invocation plain).symm.trans all,taken,after ▸ listed⟩

/-- What a call leaves behind. -/
structure Recorded (w : StepWrite) (old : Option Entry) (e : Entry) : Prop where
  name : e.name = w.name.str
  exit : number w.exit.str = some e.exit
  user : e.user = w.user.str
  skip : e.skip = if w.skip then 1 else 0
  log : Word e.log ∨ ∃ o, old = some o ∧ e.log = o.log

theorem recorded_of_written {w : StepWrite} {g : Given} {old : Option Entry} {e : Entry} (plain : Plain w)
    (given : StepWrite.given w = some g) (taken : written old g = some e) : Recorded w old e := by
  simp only [StepWrite.given,bind,Option.bind_eq_some_iff,pure,Option.some.injEq] at given
  obtain ⟨exit,exits,_,_,_,_,_,_,rfl⟩ := given
  have log : ∀ s : Str, Word ((if w.log.str = [] then none else some w.log.str).getD s) ∨
      (if w.log.str = [] then none else some w.log.str).getD s = s := by
    intro s
    split
    · exact .inr rfl
    · exact .inl plain.log
  cases old with
  | some o =>
    cases taken
    refine ⟨rfl,exits,rfl,rfl,?_⟩
    rcases log o.log with word | same
    · exact .inl word
    · exact .inr ⟨o,rfl,same⟩
  | none =>
    simp only [written,Given.create,bind,Option.bind_eq_some_iff,pure,Option.some.injEq] at taken
    obtain ⟨_,rfl,_,rfl,_,rfl,_,rfl,_,_,rfl⟩ := taken
    refine ⟨rfl,exits,rfl,rfl,?_⟩
    rcases log [] with word | same
    · exact .inl word
    · exact .inl (by rw [same]; intro c member; cases member)

/-! ## Calls with numbers -/

/-- A call of `step_write` whose numbers are numbers. -/
structure Record where
  id : Arg
  name : Arg
  exit : Int64
  duration : Int64
  delta : Int64
  log : Arg
  user : Arg
  time : Option Int64
  skip : Bool

def Record.args (r : Record) : StepWrite where
  id := r.id
  name := r.name
  exit := decimalArg r.exit.toInt
  duration := decimalArg r.duration.toInt
  delta := decimalArg r.delta.toInt
  log := r.log
  user := r.user
  time := r.time.map fun t => decimalArg t.toInt
  skip := r.skip

/-- The words of a record. -/
structure Record.Plain (r : Record) : Prop where
  name : Word r.name.str
  named : r.name.str ≠ []
  log : Word r.log.str
  user : Word r.user.str
  owned : r.user.str ≠ []

def Record.given (r : Record) : Given where
  name := some r.name.str
  exit := some r.exit
  duration := some r.duration
  delta := some r.delta
  log := if r.log.str = [] then none else some r.log.str
  user := some r.user.str
  time := r.time
  skip := some (if r.skip then 1 else 0)

theorem number_decimal (n : Int64) : number (decimal n.toInt) = some n := by
  obtain ⟨low,high⟩ := int64_bounds n
  simp [number,strtonum_decimal low high,Except.toOption]

theorem optionalNumber_decimal (n : Int64) : optionalNumber (decimal n.toInt) = some (some n) := by
  simp [optionalNumber,Decimal.decimal_ne_nil,number_decimal]

theorem given_record (r : Record) : StepWrite.given r.args = some r.given := by
  simp only [StepWrite.given,Record.args,decimalArg,number_decimal,optionalNumber_decimal,Option.map_map]
  cases time : r.time with
  | none =>
    simp only [Record.given,time]
    rfl
  | some t =>
    simp only [Record.given,time,Option.map_some,Option.getD_some,Function.comp_apply,optionalNumber_decimal]
    rfl

theorem plain_record {r : Record} {n : Int} (numbered : r.id = decimalArg n) (plain : r.Plain) : Plain r.args where
  name := plain.name
  exit := word_decimal _
  duration := word_decimal _
  delta := word_decimal _
  log := plain.log
  user := plain.user
  time t given := by
    obtain ⟨n,_,rfl⟩ := Option.map_eq_some_iff.mp given
    exact word_decimal _
  numbered := by
    rw [show r.args.id = decimalArg n from numbered]
    exact Decimal.decimal_ne_nil n
  named := plain.named
  owned := plain.owned
  exits := Decimal.decimal_ne_nil _
  lasts := Decimal.decimal_ne_nil _

theorem recorded_exit {r : Record} {old : Option Entry} {e : Entry} (recorded : Recorded r.args old e) :
    e.exit = r.exit :=
  Option.some.inj (recorded.exit.symm.trans (number_decimal r.exit))

theorem written_record {r : Record} {old : Option Entry} (known : r.time = none → old ≠ none) :
    ∃ e, written old r.given = some e := by
  cases old with
  | some o => exact ⟨_,rfl⟩
  | none =>
    cases time : r.time with
    | none => exact absurd rfl (known time)
    | some t => exact ⟨_,by simp only [written,Given.create,Record.given,time]; rfl⟩

theorem written_duration {r : Record} {old : Option Entry} {e : Entry} (taken : written old r.given = some e) :
    e.duration = r.duration := by
  cases old with
  | some o =>
    cases taken
    rfl
  | none =>
    simp only [written,Given.create,bind,Option.bind_eq_some_iff,pure,Option.some.injEq] at taken
    obtain ⟨_,_,_,_,_,duration,_,_,_,_,rfl⟩ := taken
    exact (Option.some.inj duration).symm

/-- A record of a known step, or one with a time, is written. -/
theorem stepWrite_record (q : Qsort Step.id) {file : Str} {m : Store} (here : ListOf file m) {r : Record} {id : Int}
    (numbered : r.id = decimalArg id) (positive : 0 < id) (high : id ≤ intMax) (plain : r.Plain)
    (known : r.time = none → m id ≠ none) :
    ∃ e, Recorded r.args (m id) e ∧ e.duration = r.duration ∧ (stepWrite q r.args file).1 = 0 ∧
      ListOf (stepWrite q r.args file).2 (Function.update m id (some e)) := by
  obtain ⟨e,taken⟩ := written_record known
  have words := plain_record numbered plain
  obtain ⟨code,listed⟩ := stepWrite_refines q words here
  have identified : parseId r.args.id.str = .ok id := by
    rw [show r.args.id = decimalArg id from numbered]
    exact parseId_decimal (by simp only [intMax]; omega) high
  have applied : m.apply (StepWrite.invocation r.args words) = (0,Function.update m id (some e)) := by
    have nonzero : ¬ (id = 0 ∨ (StepWrite.invocation r.args words).kvs = []) := by
      rw [not_or]
      exact ⟨by omega,by simp [StepWrite.invocation]⟩
    simp only [Store.apply,show (StepWrite.invocation r.args words).id = r.args.id from rfl,identified,if_neg nonzero,
      given_invocation words,given_record,Option.bind_some,Store.write,taken,Option.map_some]
  rw [applied] at code listed
  exact ⟨e,recorded_of_written words (given_record r) taken,written_duration taken,code,listed⟩

/-! ## Files the shell can read -/

/-- The entries of a map whose texts are plain words, under positive numbers. -/
structure Store.Wordy (m : Store) : Prop where
  words : ∀ id e, m id = some e → Word e.name ∧ Word e.log ∧ Word e.user
  positive : ∀ id e, m id = some e → 0 < id ∧ id ≤ intMax

theorem ascending_length {rows : List Row} (ordered : rows.Pairwise fun r r' => r.id < r'.id) {low high : Int}
    (bounds : ∀ r ∈ rows, low < r.id ∧ r.id ≤ high) (room : low ≤ high) : (rows.length : Int) ≤ high-low := by
  induction ordered generalizing low with
  | nil => simpa using room
  | @cons r rows above _ ih =>
    obtain ⟨first,last⟩ := bounds r (by simp)
    have rest := @ih r.id (fun r' member => ⟨above r' member,(bounds r' (by simp [member])).2⟩) last
    simp only [List.length_cons]
    omega

theorem parsed_rows {file : Str} {m : Store} (here : ListOf file m) (wordy : Store.Wordy m) :
    ∃ rows, Represents rows m ∧ Parsed file rows := by
  obtain ⟨sf,rows,parsed,shape,represents⟩ := here
  have entry : ∀ r ∈ rows, m r.id = some (Row.entry r) :=
    fun r member => (represents.entries _ _).mpr ⟨r,member,rfl,rfl⟩
  have bounds : ∀ r ∈ rows, 0 < r.id ∧ r.id ≤ intMax := fun r member => wordy.positive _ _ (entry r member)
  have short := ascending_length represents.ordered bounds (by decide)
  exact ⟨rows,represents,⟨sf,parsed,shape⟩,fun r member => wordy.words _ _ (entry r member),by omega⟩

/-- Whether an entry is marked to be skipped. -/
def Entry.skipped (e : Entry) : Bool := e.skip.toInt = 1

theorem recorded_skipped {w : StepWrite} {old : Option StepMap.Entry} {e : StepMap.Entry}
    (recorded : Recorded w old e) :
    Entry.skipped e = w.skip := by
  rw [Entry.skipped,recorded.skip]
  cases w.skip <;> decide

@[simp] theorem entry_skipped (r : Row) : Entry.skipped (Row.entry r) = Row.skipped r := rfl

@[simp] theorem entry_name (r : Row) : (Row.entry r).name = r.name := rfl

/-- The number `step_next` prints for the last entry that is not skipped. -/
def Entry.next (id : Int) (e : Entry) : Int :=
  if e.exit.toInt ≠ 0 then id else if e.name = "end".toList then id else id+1

/-- The entry is the last that is not skipped. -/
structure Last (m : Store) (id : Int) (e : Entry) : Prop where
  here : m id = some e
  executed : Entry.skipped e = false
  above : ∀ id' e', m id' = some e' → Entry.skipped e' = false → id' ≤ id

section
variable {file : Str} {m : Store} (here : ListOf file m) (wordy : Store.Wordy m) (sh : Interpreter) (vars : Vars)
include here wordy

/-- `step_next` prints a number where a step was executed, and the last one decides. -/
theorem stepNext_some {out : Str} (printed : stepNext sh file vars = some out) :
    ∃ id e, Last m id e ∧ out = decimal (Entry.next id e) := by
  obtain ⟨rows,represents,parsed⟩ := parsed_rows here wordy
  rw [stepNext_rows parsed] at printed
  obtain ⟨n,next,rfl⟩ := Option.map_eq_some_iff.mp printed
  obtain ⟨r,found,rfl⟩ := Option.map_eq_some_iff.mp next
  obtain ⟨executed,later,earlier,split,skipped⟩ := List.find?_eq_some_iff_append.mp found
  have order := represents.ordered
  rw [← List.reverse_reverse rows,split,List.reverse_append,List.reverse_cons,List.append_assoc,
    List.pairwise_append] at order
  have member : r ∈ rows := List.mem_reverse.mp (List.mem_of_find?_eq_some found)
  refine ⟨r.id,Row.entry r,⟨(represents.entries _ _).mpr ⟨r,member,rfl,rfl⟩,by simpa using executed,?_⟩,rfl⟩
  intro id' e' listed unskipped
  obtain ⟨r',member',rfl,rfl⟩ := (represents.entries _ _).mp listed
  rcases List.mem_append.mp (split ▸ List.mem_reverse.mpr member') with after | atOrBefore
  · have marked := skipped r' after
    rw [show Row.skipped r' = false from unskipped] at marked
    cases marked
  · rcases List.mem_cons.mp atOrBefore with rfl | before
    · exact Int.le_refl _
    · exact Int.le_of_lt (order.2.2 r' (List.mem_reverse.mpr before) r (by simp))

/-- Where the entries with a name agree on being skipped, the test finds it out. -/
theorem stepSkipped_name {name : Arg} {flag : Bool}
    (agree : ∀ id e, m id = some e → e.name = name.str → Entry.skipped e = flag)
    (marked : flag = true → ∃ id e, m id = some e ∧ e.name = name.str) :
    stepSkipped sh name file vars = flag := by
  obtain ⟨rows,represents,parsed⟩ := parsed_rows here wordy
  rw [stepSkipped_rows parsed,rowsSkipped]
  cases found : rows.find? (·.name = name.str) with
  | some r =>
    have member := List.mem_of_find?_eq_some found
    exact agree r.id (Row.entry r) ((represents.entries _ _).mpr ⟨r,member,rfl,rfl⟩)
      (by simpa using List.find?_some found)
  | none =>
    cases flag with
    | false => rfl
    | true =>
      obtain ⟨id,e,listed,named⟩ := marked rfl
      obtain ⟨r,member,rfl,rfl⟩ := (represents.entries _ _).mp listed
      exact absurd named (by simpa using List.find?_eq_none.mp found r member)

theorem hasSteps_iff : hasSteps sh file vars = true ↔ ∃ id e, m id = some e ∧ Entry.skipped e = false := by
  obtain ⟨rows,represents,parsed⟩ := parsed_rows here wordy
  rw [hasSteps_rows parsed,List.any_eq_true]
  constructor
  · rintro ⟨r,member,executed⟩
    exact ⟨r.id,Row.entry r,(represents.entries _ _).mpr ⟨r,member,rfl,rfl⟩,by simpa using executed⟩
  · rintro ⟨id,e,listed,executed⟩
    obtain ⟨r,member,rfl,rfl⟩ := (represents.entries _ _).mp listed
    exact ⟨r,member,by simpa using executed⟩

end

end Robsd.StepRecord
