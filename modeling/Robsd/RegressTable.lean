import Robsd.RegressRuns

/-!
The table of robsd-regress-html: a column for each invocation and a row for each
suite. The row is written in one pass over the runs of the suite, the columns
being advanced by comparing the times.
-/
namespace Robsd.RegressTable
open Robsd.Strings
open Robsd.RegressRuns

/-! ## A row -/

/-- A `td` below an invocation: without anything, or what `render_run` puts there. -/
inductive Cell where
  | empty
  | run (run : Run)
  deriving DecidableEq

/-- A row, with the link of its first cell. -/
structure Row where
  href : Str
  name : Str
  cells : List Cell
  deriving DecidableEq

def cvswebUrl (path : Str) : Str := "https://cvsweb.openbsd.org/cgi-bin/cvsweb/src/regress/".toList ++ path

def githubUrl (stepName : Str) : Str :=
  "https://github.com/mptre/robsd/blob/master/robsd-regress-".toList ++ stepName ++ ".sh".toList

/-- The loop of `render_suite` over the runs, from an invocation on. There is no
    result where an invocation past the end is inspected. -/
def renderRuns : List RegressInvocation → List Run → Option (List Cell)
  | _,[] => some []
  | [],_ :: _ => none
  | ri :: ris,run :: runs =>
    -- Compensate for missing run(s).
    if run.time.toInt < ri.time.toInt then (renderRuns ris (run :: runs)).map (.empty :: ·)
    else (renderRuns ris runs).map (.run run :: ·)

/-- `render_suite`. -/
def renderSuite (r : RegressHtml) (suite : Suite) : Option Row :=
  let href := if suite.type = .informative then githubUrl suite.name else cvswebUrl suite.name
  (renderRuns r.invocations suite.runs).map fun cells => ⟨href,suite.name,cells⟩

/-! ## Alignment -/

/-- The runs to be seen in a cell, if there is one. -/
def shown : Option Cell → List Run
  | some (.run run) => [run]
  | _ => []

/-- No cell stands outside of the columns, and every column shows the runs parsed
    from its invocation and nothing else. -/
def Aligned (ris : List RegressInvocation) (runs : List Run) (cells : List Cell) : Prop :=
  cells.length ≤ ris.length ∧ ∀ j (h : j < ris.length), shown cells[j]? = runs.filter fun run => ris[j].Ran run

/-- The column of the invocation that a run was parsed from. -/
def column (ris : List RegressInvocation) (run : Run) : Nat := ris.findIdx fun ri => ri.Ran run

/-- Runs with the same time stand in the order of their columns, no two of them in
    one; and of two invocations with the same time the second has a run only if the
    first has one, too. -/
structure Separate (ris : List RegressInvocation) (runs : List Run) : Prop where
  order : runs.Pairwise fun a b => a.time = b.time → column ris a < column ris b
  first : ris.Pairwise fun x y => x.time = y.time → (∃ run ∈ runs, y.Ran run) → ∃ run ∈ runs, x.Ran run

instance (ris : List RegressInvocation) (runs : List Run) : Decidable (Separate ris runs) :=
  decidable_of_iff ((runs.Pairwise fun a b => a.time = b.time → column ris a < column ris b) ∧
    ris.Pairwise fun x y => x.time = y.time → (∃ run ∈ runs, y.Ran run) → ∃ run ∈ runs, x.Ran run)
    ⟨fun both => ⟨both.1,both.2⟩,fun separate => ⟨separate.order,separate.first⟩⟩

/-- What is known about the columns and the runs from some column on. -/
structure Remaining (ris : List RegressInvocation) (runs : List Run) : Prop where
  columnsFall : ris.Pairwise fun a b => b.time.toInt ≤ a.time.toInt
  runsFall : runs.Pairwise fun a b => b.time.toInt ≤ a.time.toInt
  distinct : ris.Pairwise fun a b => ¬ (a.arch = b.arch ∧ a.date = b.date)
  parsed : ∀ run ∈ runs, ∃ ri ∈ ris, ri.Ran run
  times : ∀ run ∈ runs, ∀ ri ∈ ris, ri.Ran run → ri.time = run.time

theorem remaining {r : RegressHtml} (consistent : Consistent r) (ordered : Ordered r) {suite : Suite}
    (member : suite ∈ r.suites) :
    Remaining r.invocations suite.runs := by
  refine ⟨ordered.invocations,ordered.runs suite member,?_,?_,?_⟩
  · refine (List.pairwise_map.mp consistent.distinct).imp fun different same => different ?_
    simp only [RegressInvocation.directory,same.1,same.2]
  · intro run here
    obtain ⟨ri,there,ran,_⟩ := consistent.parsed suite member run here
    exact ⟨ri,there,ran⟩
  · intro run here ri there ran
    obtain ⟨other,there',ran',time⟩ := consistent.parsed suite member run here
    have same : ri.directory r.output = other.directory r.output := by
      simp only [RegressInvocation.directory,← ran.1,← ran.2,ran'.1,ran'.2]
    rw [List.inj_on_of_nodup_map consistent.distinct there there' same]
    exact time

theorem aligned_cons {ri : RegressInvocation} {ris : List RegressInvocation} {runs : List Run} {cell : Cell}
    {cells : List Cell} :
    Aligned (ri :: ris) runs (cell :: cells) ↔ shown (some cell) = runs.filter (fun run => ri.Ran run) ∧
      Aligned ris runs cells := by
  constructor
  · rintro ⟨length,columns⟩
    refine ⟨columns 0 (by simp),Nat.le_of_succ_le_succ length,?_⟩
    intro j h
    exact columns (j+1) (Nat.succ_lt_succ h)
  · rintro ⟨here,length,columns⟩
    refine ⟨Nat.succ_le_succ length,?_⟩
    intro j h
    cases j with
    | zero => exact here
    | succ j => exact columns j (Nat.lt_of_succ_lt_succ h)

section
variable {ri : RegressInvocation} {ris : List RegressInvocation}

/-- A run of a later column has not been parsed from this one. -/
theorem not_ran {runs : List Run} (known : Remaining (ri :: ris) runs) {run : Run} {other : RegressInvocation}
    (there : other ∈ ris) (ran : other.Ran run) :
    ¬ ri.Ran run :=
  fun here => List.rel_of_pairwise_cons known.distinct there ⟨here.1.symm.trans ran.1,here.2.symm.trans ran.2⟩

theorem column_here {run : Run} (here : ri.Ran run) : column (ri :: ris) run = 0 := by
  simp [column,List.findIdx_cons,here]

theorem column_later {run : Run} (later : ¬ ri.Ran run) : column (ri :: ris) run = column ris run+1 := by
  simp [column,List.findIdx_cons,later]

/-- Without a run of the first column it can be left out. -/
theorem separate_skip {runs : List Run} (later : ∀ run ∈ runs, ¬ ri.Ran run)
    (earlier : ∀ x ∈ ris, ∀ run ∈ runs, x.Ran run → ri.time ≠ x.time) :
    Separate (ri :: ris) runs ↔ Separate ris runs := by
  have order : (runs.Pairwise fun a b => a.time = b.time → column (ri :: ris) a < column (ri :: ris) b) ↔
      runs.Pairwise fun a b => a.time = b.time → column ris a < column ris b := by
    refine List.Pairwise.iff_of_mem fun {a b} here there => ?_
    rw [column_later (later a here),column_later (later b there),Nat.add_lt_add_iff_right]
  constructor
  · rintro ⟨columns,first⟩
    exact ⟨order.mp columns,(List.pairwise_cons.mp first).2⟩
  · rintro ⟨columns,first⟩
    refine ⟨order.mpr columns,List.pairwise_cons.mpr ⟨?_,first⟩⟩
    intro x there same
    rintro ⟨run,here,ran⟩
    exact absurd same (earlier x there run here ran)

/-- With the only run of the first column both can be left out. -/
theorem separate_run {run : Run} {runs : List Run} (here : ri.Ran run) (later : ∀ other ∈ runs, ¬ ri.Ran other)
    (known : Remaining (ri :: ris) (run :: runs)) : Separate (ri :: ris) (run :: runs) ↔ Separate ris runs := by
  have order : (runs.Pairwise fun a b => a.time = b.time → column (ri :: ris) a < column (ri :: ris) b) ↔
      runs.Pairwise fun a b => a.time = b.time → column ris a < column ris b := by
    refine List.Pairwise.iff_of_mem fun {a b} here there => ?_
    rw [column_later (later a here),column_later (later b there),Nat.add_lt_add_iff_right]
  have has : ∀ x ∈ ris, (∃ other ∈ run :: runs, x.Ran other) ↔ ∃ other ∈ runs, x.Ran other := by
    intro x there
    have different : ¬ x.Ran run := fun ran => not_ran known there ran here
    simp [different]
  have first : (ris.Pairwise fun x y => x.time = y.time → (∃ other ∈ run :: runs, y.Ran other) →
    ∃ other ∈ run :: runs, x.Ran other) ↔
      ris.Pairwise fun x y => x.time = y.time → (∃ other ∈ runs, y.Ran other) → ∃ other ∈ runs, x.Ran other := by
    refine List.Pairwise.iff_of_mem fun {x y} this that => ?_
    rw [has x this,has y that]
  constructor
  · rintro ⟨columns,firsts⟩
    exact ⟨order.mp (List.pairwise_cons.mp columns).2,first.mp (List.pairwise_cons.mp firsts).2⟩
  · rintro ⟨columns,firsts⟩
    refine ⟨List.pairwise_cons.mpr ⟨?_,order.mpr columns⟩,
      List.pairwise_cons.mpr ⟨fun x _ _ _ => ⟨run,by simp,here⟩,first.mpr firsts⟩⟩
    intro other there _
    rw [column_here here,column_later (later other there)]
    omega

/-- The first run is older than the invocation, and so are the others. -/
theorem older {run : Run} {runs : List Run} (known : Remaining (ri :: ris) (run :: runs))
    (missing : run.time.toInt < ri.time.toInt) :
    ∀ other ∈ run :: runs, other.time.toInt < ri.time.toInt := by
  intro other member
  rcases List.mem_cons.mp member with rfl | later
  · exact missing
  · exact Int.lt_of_le_of_lt (List.rel_of_pairwise_cons known.runsFall later) missing

/-- No older run was parsed from the invocation. -/
theorem older_not_ran {run : Run} {runs : List Run} (known : Remaining (ri :: ris) (run :: runs))
    (missing : run.time.toInt < ri.time.toInt) : ∀ other ∈ run :: runs, ¬ ri.Ran other := by
  intro other member ran
  have less := older known missing other member
  rw [known.times other member ri (by simp) ran] at less
  omega

/-- What is known without a column that has none of the runs. -/
theorem remaining_skip {runs : List Run} (known : Remaining (ri :: ris) runs)
    (none : ∀ run ∈ runs, ¬ ri.Ran run) :
    Remaining ris runs := by
  refine ⟨(List.pairwise_cons.mp known.columnsFall).2,known.runsFall,
    (List.pairwise_cons.mp known.distinct).2,?_,
    fun run here x there => known.times run here x (List.mem_cons_of_mem _ there)⟩
  intro run here
  obtain ⟨x,there,ran⟩ := known.parsed run here
  rcases List.mem_cons.mp there with rfl | later
  · exact absurd ran (none run here)
  · exact ⟨x,later,ran⟩

theorem remaining_tail {run : Run} {runs : List Run} (known : Remaining ris (run :: runs)) : Remaining ris runs :=
  ⟨known.columnsFall,(List.pairwise_cons.mp known.runsFall).2,known.distinct,fun other member =>
    known.parsed other (List.mem_cons_of_mem _ member),
    fun other member => known.times other (List.mem_cons_of_mem _ member)⟩

theorem separate_older {run : Run} {runs : List Run} (known : Remaining (ri :: ris) (run :: runs))
    (missing : run.time.toInt < ri.time.toInt) : Separate (ri :: ris) (run :: runs) ↔ Separate ris (run :: runs) := by
  apply separate_skip (older_not_ran known missing)
  intro x there other member ran same
  have less := older known missing other member
  rw [same,known.times other member x (List.mem_cons_of_mem _ there) ran] at less
  omega

/-- A run that is not older than the invocation has its time. -/
theorem time_eq {run : Run} {runs : List Run} (known : Remaining (ri :: ris) (run :: runs))
    (notOlder : ¬ run.time.toInt < ri.time.toInt) :
    ri.time = run.time := by
  obtain ⟨x,there,ran⟩ := known.parsed run (by simp)
  have same := known.times run (by simp) x there ran
  rcases List.mem_cons.mp there with rfl | later
  · exact same
  · have falls := List.rel_of_pairwise_cons known.columnsFall later
    rw [same] at falls
    exact Int64.toInt_inj.mp (by omega)

/-- Then it is the only run of the first column, if they are separate. -/
theorem separate_first {run : Run} {runs : List Run} (known : Remaining (ri :: ris) (run :: runs))
    (time : ri.time = run.time) (separate : Separate (ri :: ris) (run :: runs)) :
    ri.Ran run ∧ ∀ other ∈ runs, ¬ ri.Ran other := by
  have before : ∀ other ∈ runs, ¬ ri.Ran other := by
    intro other member ran
    have same := known.times other (List.mem_cons_of_mem _ member) ri (by simp) ran
    have left := List.rel_of_pairwise_cons separate.order member (time.symm.trans same)
    rw [column_here ran] at left
    omega
  refine ⟨?_,before⟩
  obtain ⟨x,there,ran⟩ := known.parsed run (by simp)
  rcases List.mem_cons.mp there with rfl | later
  · exact ran
  · have same := known.times run (by simp) x there ran
    obtain ⟨other,member,ran'⟩ :=
      List.rel_of_pairwise_cons separate.first later (time.trans same.symm) ⟨run,by simp,ran⟩
    rcases List.mem_cons.mp member with rfl | member
    · exact ran'
    · exact absurd ran' (before other member)

/-- A column shows one run when that is the only one parsed from its invocation. -/
theorem only_iff {run : Run} {runs : List Run} :
    [run] = (run :: runs).filter (fun run => ri.Ran run) ↔ ri.Ran run ∧ ∀ other ∈ runs, ¬ ri.Ran other := by
  by_cases ran : ri.Ran run
  · rw [List.filter_cons_of_pos (by simpa using ran)]
    rw [List.cons_eq_cons,eq_comm (a := ([] : List Run)),List.filter_eq_nil_iff]
    simp [ran]
  · rw [List.filter_cons_of_neg (by simpa using ran)]
    refine iff_of_false (fun same => ran ?_) fun both => ran both.1
    have member : run ∈ runs.filter fun run => ri.Ran run := by simp [← same]
    simpa using (List.mem_filter.mp member).2

/-- Rendering with a cell in front. -/
private theorem rendered_cons {cell : Cell} {row : Option (List Cell)} {runs runs' : List Run}
    (others : ∀ cells, Aligned ris runs cells ↔ Aligned ris runs' cells) :
    (∃ cells, row.map (cell :: ·) = some cells ∧ Aligned (ri :: ris) runs cells) ↔
      shown (some cell) = runs.filter (fun run => ri.Ran run) ∧ ∃ cells, row = some cells ∧
        Aligned ris runs' cells := by
  constructor
  · rintro ⟨cells,written,aligned⟩
    obtain ⟨later,shape,rfl⟩ := Option.map_eq_some_iff.mp written
    obtain ⟨here,aligned⟩ := aligned_cons.mp aligned
    exact ⟨here,later,shape,(others later).mp aligned⟩
  · rintro ⟨here,cells,rfl,aligned⟩
    exact ⟨_,rfl,aligned_cons.mpr ⟨here,(others cells).mpr aligned⟩⟩

end

/-- From any column on, the remaining runs are shown in their columns exactly when
    they are separate. -/
theorem renderRuns_aligned {ris : List RegressInvocation} {runs : List Run} (known : Remaining ris runs) :
    (∃ cells, renderRuns ris runs = some cells ∧ Aligned ris runs cells) ↔ Separate ris runs := by
  induction ris generalizing runs with
  | nil =>
    cases runs with
    | nil => simp [renderRuns,Aligned,Separate.mk]
    | cons run runs =>
      obtain ⟨ri,impossible,_⟩ := known.parsed run (by simp)
      cases impossible
  | cons ri ris ih =>
    cases runs with
    | nil =>
      refine ⟨fun _ => ⟨.nil,List.pairwise_of_forall ?_⟩,fun _ => ⟨[],rfl,by simp [Aligned,shown]⟩⟩
      intro _ _ _ some
      obtain ⟨_,impossible,_⟩ := some
      cases impossible
    | cons run runs =>
      by_cases missing : run.time.toInt < ri.time.toInt
      · have none := older_not_ran known missing
        have nothing : shown (some .empty) = (run :: runs).filter (fun run => ri.Ran run) :=
          (List.filter_eq_nil_iff.mpr fun other member => by simpa using none other member).symm
        rw [renderRuns,if_pos missing,rendered_cons fun _ => Iff.rfl,separate_older known missing,
          ih (remaining_skip known none)]
        exact and_iff_right nothing
      · rw [renderRuns,if_neg missing]
        by_cases only : ri.Ran run ∧ ∀ other ∈ runs, ¬ ri.Ran other
        · have others : ∀ cells, Aligned ris (run :: runs) cells ↔ Aligned ris runs cells := by
            refine fun cells => and_congr_right fun _ => forall₂_congr ?_
            intro j h
            have different : ¬ ris[j].Ran run := fun ran => not_ran known (List.getElem_mem h) ran only.1
            rw [List.filter_cons_of_neg (by simpa using different)]
          rw [rendered_cons others,separate_run only.1 only.2 known,ih (remaining_skip (remaining_tail known) only.2)]
          exact and_iff_right (only_iff.mpr only)
        · rw [rendered_cons fun _ => Iff.rfl]
          exact iff_of_false (fun aligned => only (only_iff.mp aligned.1))
            fun separate => only (separate_first known (time_eq known missing) separate)

/-- Behind the last run no cell is written. -/
theorem renderRuns_last {ris : List RegressInvocation} {runs : List Run} {cells : List Cell}
    (written : renderRuns ris runs = some cells) :
    ∀ cell ∈ cells.getLast?, ∃ run, cell = .run run := by
  induction ris generalizing runs cells with
  | nil =>
    cases runs with
    | nil => cases written; simp
    | cons run runs => cases written
  | cons ri ris ih =>
    cases runs with
    | nil => cases written; simp
    | cons run runs =>
      rw [renderRuns] at written
      split at written
      · next missing =>
        obtain ⟨later,shape,rfl⟩ := Option.map_eq_some_iff.mp written
        cases later with
        | nil =>
          -- The run itself is still to be written.
          cases ris with
          | nil => cases shape
          | cons next ris =>
            rw [renderRuns] at shape
            split at shape <;> simp at shape
        | cons cell later =>
          rw [List.getLast?_cons_cons]
          exact ih shape
      · obtain ⟨later,shape,rfl⟩ := Option.map_eq_some_iff.mp written
        cases later with
        | nil => simp
        | cons cell later =>
          rw [List.getLast?_cons_cons]
          exact ih shape

/-- The cells fill the row exactly when the last column shows a run. -/
theorem full_iff {ris : List RegressInvocation} {runs : List Run} {cells : List Cell}
    (written : renderRuns ris runs = some cells) (aligned : Aligned ris runs cells) :
    cells.length = ris.length ↔ ∀ ri ∈ ris.getLast?, ∃ run ∈ runs, ri.Ran run := by
  obtain ⟨length,columns⟩ := aligned
  by_cases none : ris = []
  · subst none
    simp only [List.length_nil,Nat.le_zero] at length
    simp [length]
  · have position := List.length_pos_iff.mpr none
    have last : shown cells[ris.length-1]? = runs.filter fun run => (ris.getLast none).Ran run := by
      rw [columns (ris.length-1) (by omega),List.getLast_eq_getElem none]
    simp only [List.getLast?_eq_some_getLast none,Option.mem_def,Option.some.injEq,forall_eq']
    constructor
    · intro full
      have filled : cells ≠ [] := by
        rintro rfl
        simp only [List.length_nil] at full
        omega
      obtain ⟨run,here⟩ := renderRuns_last written _ (List.getLast?_eq_some_getLast filled)
      rw [← full,← List.getLast?_eq_getElem?,List.getLast?_eq_some_getLast filled,here] at last
      have member : run ∈ runs.filter fun run => (ris.getLast none).Ran run := by simp [← last,shown]
      exact ⟨run,(List.mem_filter.mp member).1,by simpa using (List.mem_filter.mp member).2⟩
    · rintro ⟨run,member,ran⟩
      have seen : run ∈ shown cells[ris.length-1]? := by
        rw [last]
        exact List.mem_filter.mpr ⟨member,by simpa using ran⟩
      by_cases inside : ris.length-1 < cells.length
      · omega
      · rw [List.getElem?_eq_none (by omega)] at seen
        cases seen

/-- The row of a suite shows every run in the column of the invocation it was
    parsed from, without looking at an invocation past the end, exactly when the
    runs are separate; and it is as wide as the head of the table when in addition
    the last invocation has a run. -/
theorem renderSuite_aligned_iff {host : Host} {output : Str} {directories : List Str}
    {arguments : List (Str × Str)} {r : RegressHtml}
    (parsed : parseArguments host arguments (regressHtmlAlloc output directories) = some r) {suite : Suite}
    (member : suite ∈ r.suites) :
    ((∃ row, renderSuite r suite = some row ∧ Aligned r.invocations suite.runs row.cells) ↔
      Separate r.invocations suite.runs) ∧
    ((∃ row, renderSuite r suite = some row ∧ Aligned r.invocations suite.runs row.cells ∧
      row.cells.length = r.invocations.length) ↔
      Separate r.invocations suite.runs ∧ ∀ ri ∈ r.invocations.getLast?, ∃ run ∈ suite.runs, ri.Ran run) := by
  obtain ⟨consistent,ordered⟩ := parseArguments_ordered (regressHtmlAlloc_consistent output directories)
    (regressHtmlAlloc_ordered output directories) parsed
  have cells := renderRuns_aligned (remaining consistent ordered member)
  simp only [renderSuite,Option.map_eq_some_iff]
  constructor
  · rw [← cells]
    constructor
    · rintro ⟨_,⟨cells,written,rfl⟩,aligned⟩
      exact ⟨cells,written,aligned⟩
    · rintro ⟨cells,written,aligned⟩
      exact ⟨_,⟨cells,written,rfl⟩,aligned⟩
  · rw [← cells]
    constructor
    · rintro ⟨_,⟨cells,written,rfl⟩,aligned,full⟩
      exact ⟨⟨cells,written,aligned⟩,(full_iff written aligned).mp full⟩
    · rintro ⟨⟨cells,written,aligned⟩,last⟩
      exact ⟨_,⟨cells,written,rfl⟩,aligned,(full_iff written aligned).mpr last⟩

/-- With more runs than invocations one past the end is inspected. -/
theorem renderRuns_past_end {ris : List RegressInvocation} {runs : List Run} (more : ris.length < runs.length) :
    renderRuns ris runs = none := by
  induction ris generalizing runs with
  | nil =>
    cases runs with
    | nil => simp at more
    | cons run runs => rfl
  | cons ri ris ih =>
    cases runs with
    | nil => simp at more
    | cons run runs =>
      simp only [List.length_cons] at more
      rw [renderRuns,ih (by simp only [List.length_cons]; omega),ih (by omega)]
      simp

/-- Two machines with one invocation each, and what their step files contain. -/
def machines (amd64 arm64 : Str) : Host where
  platform := Invocations.openbsd
  listing _ := some [⟨"2022-10-25.1".toList,true⟩]
  invocationFind _ := none
  read path :=
    if path = "/amd64/2022-10-25.1/step.csv".toList then some amd64
    else if path = "/arm64/2022-10-25.1/step.csv".toList then some arm64
    else none
  readable _ := true
  creates _ := true
  writes _ := true
  hasTag _ _ := false
  logPeek _ _ := 0
  logParse _ _ := 0
  logTrim _ := 1
  invocationSort := Sorting.insertion _
  runSort := Sorting.insertion _

/-- A step file with the given suite, if any, that starts at the given time. -/
def suiteFile (suite time : String) : Str :=
  ("step,name,exit,duration,log,user,time\n1,env,0,1,env.log,root," ++ time ++ "\n" ++ suite ++
    "9,end,0,60,end.log,root," ++ time ++ "\n").toList

def testSuite (time : String) : String := "2,test/pass,0,1,pass.log,root," ++ time ++ "\n"

def arguments : List (Str × Str) := [("amd64".toList,"/amd64".toList),("arm64".toList,"/arm64".toList)]

/-- What is collected from the two machines. -/
def collected (amd64 arm64 : Str) : Option RegressHtml :=
  parseArguments (machines amd64 arm64) arguments (regressHtmlAlloc "html".toList [])

/-- A suite that only one of two machines ran, which start at different times. -/
theorem renderSuite_aligned_iff_sample :
    ∃ r, collected (suiteFile "" "200") (suiteFile (testSuite "100") "100") = some r ∧
    ∃ suite ∈ r.suites, ∃ row, renderSuite r suite = some row ∧ Aligned r.invocations suite.runs row.cells := by
  have some : (collected (suiteFile "" "200") (suiteFile (testSuite "100") "100")).any fun r =>
      r.suites.any fun suite => decide (Separate r.invocations suite.runs) := by decide +kernel
  obtain ⟨r,parsed,some⟩ := (Option.any_eq_true _ _).mp some
  obtain ⟨suite,member,separate⟩ := List.any_eq_true.mp some
  exact ⟨r,parsed,suite,member,(renderSuite_aligned_iff parsed member).1.mpr (of_decide_eq_true separate)⟩

/-- Started at the same time, the run of the second one is shown below the first. -/
theorem shown_below_other : ∃ r, collected (suiteFile "" "100") (suiteFile (testSuite "100") "100") = some r ∧
    ∃ suite ∈ r.suites, ¬ ∃ row, renderSuite r suite = some row ∧ Aligned r.invocations suite.runs row.cells := by
  have found : (collected (suiteFile "" "100") (suiteFile (testSuite "100") "100")).any fun r =>
      r.suites.any fun suite => (renderSuite r suite).any fun row => r.invocations.head?.any fun ri =>
        shown row.cells[0]? ≠ suite.runs.filter fun run => ri.Ran run := by decide +kernel
  obtain ⟨r,parsed,found⟩ := (Option.any_eq_true _ _).mp found
  obtain ⟨suite,member,found⟩ := List.any_eq_true.mp found
  obtain ⟨row,written,found⟩ := (Option.any_eq_true _ _).mp found
  obtain ⟨ri,first,different⟩ := (Option.any_eq_true _ _).mp found
  refine ⟨r,parsed,suite,member,?_⟩
  rintro ⟨row',written',_,columns⟩
  rw [written,Option.some.injEq] at written'
  subst written'
  obtain ⟨here,shape⟩ := List.head?_eq_some_iff.mp first
  have column := columns 0 (by rw [shape]; simp)
  simp only [shape,List.getElem_cons_zero] at column
  exact of_decide_eq_true different column

end Robsd.RegressTable
