import Robsd.Configuration
import Robsd.Invocations

/-!
Retention of invocations (util.sh, robsd-ls.c, robsd-clean): what robsd-ls lists
and which of it `purge` selects, while robsd is running and while it is not.
-/
namespace Robsd.Retention
open Robsd.Strings
open Robsd.Invocations
open Robsd.Configuration
open Robsd.Interpolate

/-! ## Programs -/

/-- The build directory that the content of `.running` names, if the file is there. -/
def builddir (running : Option Str) : Option Str :=
  running.bind fun text => (strchr '\n' (text.takeWhile (· ≠ nul))).map (·.1)

/-- The lines robsd-ls prints, without the given build directory. -/
def robsdLs (p : Platform) (robsddir keepdir : Str) (listing : Option (List Dirent)) (builddir : Option Str) :
    Option (List Str) :=
  (invocationAlloc p robsddir keepdir listing .desc).map fun is =>
    ((walkAll is).map (·.path)).filter fun path => builddir ≠ some path

/-- `prev_release -B`, where nothing is printed when robsd-ls fails. -/
def prevRelease (p : Platform) (robsddir keepdir : Str) (listing : Option (List Dirent))
    (running : Option Str) : List Str :=
  (robsdLs p robsddir keepdir listing (builddir running)).getD []

/-- `tail -n +n` for a positive number. -/
def tailFrom (n : Nat) (lines : List Str) : List Str := lines.drop (n-1)

/-- The directories `purge` selects. -/
def purge (p : Platform) (robsddir keepdir : Str) (listing : Option (List Dirent)) (running : Option Str)
    (n : Nat) : List Str :=
  let n := if (builddir running).isSome then n else n+1
  tailFrom n (prevRelease p robsddir keepdir listing running)

/-- The number robsd-clean is asked to keep, given its argument and the configured
    number, which are zero where they are not there. -/
def asked (count : Option Nat) (keep : Nat) : Nat := if count.getD 0 = 0 then keep else count.getD 0

/-- The directories robsd-clean moves or removes. -/
def robsdClean (p : Platform) (robsddir keepdir : Str) (listing : Option (List Dirent)) (running : Option Str)
    (count : Option Nat) (keep : Nat) : List Str :=
  let n := asked count keep
  if n = 0 then [] else purge p robsddir keepdir listing running n

/-! ## The running invocation -/

/-- The directory of robsd, given by a value without references. -/
structure Located (cf : Config) (robsddir : Str) : Prop where
  given : cf.value "robsddir".toList = some (.string robsddir)
  plain : '$' ∉ robsddir
  unset : cf.value "builddir".toList = none
  late : cf.early = false

/-- The build directory is what `.running` names. -/
theorem configFind_builddir {host : Host} {cf : Config} {robsddir : Str} (located : Located cf robsddir) :
    (configFind host "builddir".toList cf).1 = (builddir (host.read (robsddir ++ "/.running".toList))).map .string := by
  have table : ∀ mode, configFindGrammarForInterpolation mode "builddir".toList =
      some ⟨"builddir".toList,.string,none,{},.fn .buildDir⟩ := by
    intro mode
    cases mode <;> decide
  have found : configFindInner host "robsddir".toList cf = (some (.string robsddir),cf) := by
    simp only [configFindInner,configFindWith,located.given]
  have looked : configInterpolateLookupWith (configFindInner host) "robsddir".toList cf = (some robsddir,cf) := by
    simp only [configInterpolateLookupWith,located.late,Bool.false_and,Bool.false_eq_true,↓reduceIte,found,
      Option.bind_some,Value.text]
  have path := interpolateStr_running located.plain looked
  rw [configFind_absent located.unset,table]
  simp only [Bool.false_eq_true,↓reduceIte,configDefault,configDefaultBuildDir,configDefaultBuildDirWith,path,builddir]
  cases host.read (robsddir ++ "/.running".toList) with
  | none => rfl
  | some text =>
    simp only [Option.bind_some]
    cases strchr '\n' (text.takeWhile (· ≠ nul)) with
    | none => rfl
    | some found => rfl

/-! ## What is kept -/

/-- The invocations in the order in which they are kept: the running one first. -/
def kept (running : Option Str) (paths : List Str) : List Str :=
  match builddir running with
  | none => paths
  | some path => path :: paths.filter (· ≠ path)

/-- The directory has entries with distinct names, whose paths are no longer than
    paths can be. -/
structure Directory (p : Platform) (robsddir : Str) (entries : List Dirent) : Prop where
  distinct : (entries.map (·.name)).Nodup
  short : ∀ e ∈ entries, (robsddir ++ '/' :: e.name).length < p.pathMax

theorem read_distinct {p : Platform} {robsddir : Str} {entries : List Dirent} (directory : Directory p robsddir entries)
    (matches_ : Dirent → Bool) : ((invocationRead p robsddir matches_ entries).map (·.path)).Nodup := by
  rw [invocationRead,List.map_map]
  apply ((List.Nodup.of_map _ directory.distinct).filter _).map_on
  intro e member e' member' same
  have here := List.mem_of_mem_filter member
  have there := List.mem_of_mem_filter member'
  simp only [Function.comp_apply,snprintf_short (directory.short e here),
    snprintf_short (directory.short e' there)] at same
  exact List.inj_on_of_nodup_map directory.distinct here there (List.cons.inj (List.append_cancel_left same)).2

/-- robsd-ls lists no path twice. -/
theorem robsdLs_distinct {p : Platform} {robsddir keepdir : Str} {entries : List Dirent}
    (directory : Directory p robsddir entries) (builddir : Option Str) {paths : List Str}
    (listed : robsdLs p robsddir keepdir (some entries) builddir = some paths) :
    paths.Nodup := by
  simp only [robsdLs,invocationAlloc,Option.map_some,Option.some.injEq,walkAll_eq] at listed
  rw [← listed]
  refine List.Nodup.filter _ ?_
  rw [List.map_reverse,List.nodup_reverse]
  have sorted := (p.desc.perm (invocationRead p robsddir (matchDirectory p robsddir keepdir) entries)).map (·.path)
  exact sorted.nodup_iff.mpr (read_distinct directory _)

/-- Leaving out the build directory is a matter of the lines. -/
theorem robsdLs_filter (p : Platform) (robsddir keepdir : Str) (listing : Option (List Dirent))
    (builddir : Option Str) :
    robsdLs p robsddir keepdir listing builddir =
      (robsdLs p robsddir keepdir listing none).map (·.filter fun path => builddir ≠ some path) := by
  simp only [robsdLs,Option.map_map]
  congr 1
  funext is
  simp

theorem kept_perm {running : Option Str} {paths : List Str} (distinct : paths.Nodup)
    (names : ∀ path, builddir running = some path → path ∈ paths) : (kept running paths).Perm paths := by
  unfold kept
  cases run : builddir running with
  | none => exact .refl _
  | some path =>
    have erased : paths.erase path = paths.filter (· ≠ path) := 
      (distinct.erase_eq_filter path).trans (List.filter_congr fun other _ => by simp [bne,beq_eq_decide])
    change (path :: paths.filter (· ≠ path)).Perm paths
    rw [← erased]
    exact (List.perm_cons_erase (names path run)).symm

/-- The increment while robsd is not running makes up for what robsd-ls leaves out
    while it is. -/
theorem purge_eq {p : Platform} {robsddir keepdir : Str} {listing : Option (List Dirent)}
    {running : Option Str} {n : Nat} (positive : 0 < n) {paths : List Str}
    (listed : robsdLs p robsddir keepdir listing none = some paths) :
    purge p robsddir keepdir listing running n = (kept running paths).drop n := by
  simp only [purge,prevRelease,robsdLs_filter p robsddir keepdir listing (builddir running),listed,kept,tailFrom]
  cases builddir running with
  | none => simp
  | some path =>
    obtain ⟨m,rfl⟩ := Nat.exists_eq_succ_of_ne_zero (Nat.pos_iff_ne_zero.mp positive)
    simp [eq_comm]

/-- The elements of a list without repetition that are not behind its first ones
    are its first ones. -/
theorem filter_drop {paths : List Str} (distinct : paths.Nodup) (n : Nat) :
    paths.filter (· ∉ paths.drop n) = paths.take n := by
  have apart : (paths.take n ++ paths.drop n).Nodup := by rwa [List.take_append_drop]
  have disjoint := List.disjoint_of_nodup_append apart
  have first : (paths.take n).filter (· ∉ paths.drop n) = paths.take n :=
    List.filter_eq_self.mpr fun path member => decide_eq_true fun later => disjoint member later
  have second : (paths.drop n).filter (· ∉ paths.drop n) = [] :=
    List.filter_eq_nil_iff.mpr fun path member => by simpa using member
  have whole := congrArg (List.filter (· ∉ paths.drop n)) (List.take_append_drop n paths)
  rw [← whole,List.filter_append,first,second,List.append_nil]

/-- As many invocations as asked for remain, if there are that many. -/
theorem purge_remaining {p : Platform} {robsddir keepdir : Str} {entries : List Dirent}
    (directory : Directory p robsddir entries) {running : Option Str} {n : Nat} (positive : 0 < n)
    {paths : List Str} (listed : robsdLs p robsddir keepdir (some entries) none = some paths)
    (names : ∀ path, builddir running = some path → path ∈ paths) :
    (paths.filter (· ∉ purge p robsddir keepdir (some entries) running n)).length = min n paths.length := by
  have distinct := robsdLs_distinct directory none listed
  have perm := kept_perm distinct names
  rw [@purge_eq p robsddir keepdir (some entries) running n positive paths listed,← (perm.filter _).length_eq,
    filter_drop (perm.nodup_iff.mpr distinct),List.length_take,perm.length_eq]

/-- robsd-clean leaves all invocations alone unless it is given a number. -/
theorem robsdClean_remaining {p : Platform} {robsddir keepdir : Str} {entries : List Dirent}
    (directory : Directory p robsddir entries) {running : Option Str} {paths : List Str}
    (listed : robsdLs p robsddir keepdir (some entries) none = some paths)
    (names : ∀ path, builddir running = some path → path ∈ paths) (count : Option Nat) (keep : Nat) :
    (paths.filter (· ∉ robsdClean p robsddir keepdir (some entries) running count keep)).length =
      if asked count keep = 0 then paths.length else min (asked count keep) paths.length := by
  unfold robsdClean
  by_cases none : asked count keep = 0
  · simp [none]
  · simp only [none,↓reduceIte]
    exact purge_remaining directory (Nat.pos_of_ne_zero none) listed names

/-- `purge` selects what is not among the first ones, the running invocation coming
    first and the others as robsd-ls lists them. As many as asked for remain, if
    there are that many, and the running one always does. -/
theorem purge_keeps {p : Platform} {robsddir keepdir : Str} {entries : List Dirent}
    (directory : Directory p robsddir entries) {running : Option Str} {n : Nat} (positive : 0 < n)
    {paths : List Str} (listed : robsdLs p robsddir keepdir (some entries) none = some paths)
    (names : ∀ path, builddir running = some path → path ∈ paths) :
    purge p robsddir keepdir (some entries) running n = (kept running paths).drop (min n paths.length) ∧
    (kept running paths).Perm paths ∧
    (paths.filter (· ∉ purge p robsddir keepdir (some entries) running n)).length = min n paths.length ∧
    ∀ path, builddir running = some path → path ∉ purge p robsddir keepdir (some entries) running n := by
  have distinct := robsdLs_distinct directory none listed
  have perm := kept_perm distinct names
  have selected := @purge_eq p robsddir keepdir (some entries) running n positive paths listed
  refine ⟨?_,perm,purge_remaining directory positive listed names,?_⟩
  · rw [selected]
    rcases Nat.le_total n paths.length with few | many
    · rw [Nat.min_eq_left few]
    · rw [Nat.min_eq_right many,List.drop_of_length_le (perm.length_eq ▸ many),
        List.drop_of_length_le (perm.length_eq ▸ Nat.le_refl _)]
  · intro path run
    rw [selected]
    obtain ⟨m,rfl⟩ := Nat.exists_eq_succ_of_ne_zero (Nat.pos_iff_ne_zero.mp positive)
    simp only [kept,run,List.drop_succ_cons]
    intro member
    simpa using List.of_mem_filter (List.mem_of_mem_drop member)

/-- Three invocations, of which the last one is running, and the directory kept for good. -/
def threeEntries : List Dirent :=
  [⟨"2024-06-07.1".toList,true⟩,⟨"2024-06-07.3".toList,true⟩,⟨"attic".toList,true⟩,⟨"2024-06-07.2".toList,true⟩]

def threePaths : List Str := ["/robsd/2024-06-07.3".toList,"/robsd/2024-06-07.2".toList,"/robsd/2024-06-07.1".toList]

def thirdRunning : Option Str := some "/robsd/2024-06-07.3\n".toList

theorem purge_keeps_three : (threePaths.filter (· ∉
    purge openbsd "/robsd".toList "/robsd/attic".toList (some threeEntries) thirdRunning 2)).length = 2 := by
  have directory : Directory openbsd "/robsd".toList threeEntries := ⟨by decide,by decide⟩
  have listed : robsdLs openbsd "/robsd".toList "/robsd/attic".toList (some threeEntries) none = some threePaths := by
    decide +kernel
  have names : ∀ path, builddir thirdRunning = some path → path ∈ threePaths := by
    intro path run
    have first : builddir thirdRunning = some "/robsd/2024-06-07.3".toList := by decide
    rw [first] at run
    cases run
    exact .head _
  exact (purge_keeps directory (by decide) listed names).2.2.1

end Robsd.Retention
