import Mathlib.Data.List.DropRight
import Robsd.Decimal
import Robsd.Pattern

/-!
Names of log files (util.sh). `log_id` counts the files whose names match a pattern
made of the name of the step, and numbers the new one by it. Names are fresh as
long as the pattern matches the names made of it, which characters that are
special in a pattern can prevent.
-/
namespace Robsd.LogId
open Robsd.Strings
open Robsd.Decimal
open Robsd.Pattern

/-! ## The shell -/

/-- `echo` of the shell, less the line break behind what it prints. Text is printed
    as it is up to the first backslash, unless it is taken for an option, and
    escapes are not longer than what they stand for. -/
structure Echo where
  run : Str → Str
  keeps : ∀ ahead behind : Str, '\\' ∉ ahead → ahead.head? ≠ some '-' → ahead <+: run (ahead ++ behind)
  shrinks : ∀ text : Str, (run text).length ≤ text.length

/-- A shell whose `echo` knows no escapes. -/
def plainEcho : Echo where
  run text := text
  keeps _ _ _ _ := List.prefix_append _ _
  shrinks _ := Nat.le_refl _

/-- The substitution of the output of a command, which loses line breaks at the end. -/
def capture (output : Str) : Str := output.rdropWhile (· = '\n')

/-- `tr '/' '-'`. -/
def tr (text : Str) : Str := text.map fun c => if c = '/' then '-' else c

/-- The conversion `%03d`. -/
def threeDigits (n : Nat) : Str := List.replicate (3-(Nat.toDigits 10 n).length) '0' ++ Nat.toDigits 10 n

/-- The last component of a path. -/
def basename (path : Str) : Str := path.rtakeWhile (· ≠ '/')

/-! ## Names of logs -/

/-- An attempt to execute a step. -/
structure Attempt where
  id : Nat
  name : Str
  deriving DecidableEq, Repr

section
variable (sh : Echo)

/-- `_id` of `log_id`. -/
def logBase (a : Attempt) : Str := threeDigits a.id ++ '-' :: (capture (tr (sh.run a.name)) ++ ".log".toList)

/-- The pattern given to `find`. -/
def logPattern (a : Attempt) : Str := logBase sh a ++ ['*']

/-- The paths that `find` prints: of the directory itself and of the files in it,
    those whose last component matches. -/
def matching (builddir : Str) (files : List Str) (pattern : Str) : List Str :=
  (builddir :: files.map fun file => builddir ++ '/' :: file).filter fun path => fnmatch pattern (basename path)

/-- `_dups` of `log_id`: the line breaks in the output of `find`. -/
def dups (builddir : Str) (files : List Str) (pattern : Str) : Nat :=
  ((matching builddir files pattern).flatMap (· ++ ['\n'])).count '\n'

/-- The name without a number, as `log_id` prints it. -/
def firstName (a : Attempt) : Str := capture (sh.run (logBase sh a))

/-- The name with a number. -/
def numberedName (a : Attempt) (n : Nat) : Str := logBase sh a ++ '.' :: decimal n

/-- `log_id`, given the paths of the files below the build directory. -/
def logId (builddir : Str) (files : List Str) (a : Attempt) : Str :=
  let n := dups builddir files (logPattern sh a)
  if n > 0 then numberedName sh a n else firstName sh a

/-- Every attempt of a run gets the name of a file that does not exist. -/
def Fresh (builddir : Str) : List Str → List Attempt → Prop
  | _,[] => True
  | files,a :: run => logId sh builddir files a ∉ files ∧ Fresh builddir (files ++ [logId sh builddir files a]) run

/-- The pattern made of the name of a step matches the names of its logs. -/
structure Counted (a : Attempt) : Prop where
  first : fnmatch (logPattern sh a) (basename (firstName sh a)) = true
  numbered : fnmatch (logPattern sh a) (logBase sh a) = true

/-- No file has the name of a log of one of the steps. -/
def Clear (steps : List Attempt) (files : List Str) : Prop :=
  ∀ a ∈ steps, ∀ file ∈ files, file ≠ firstName sh a ∧ ∀ n, file ≠ numberedName sh a n

end

/-! ## Counting -/

theorem matching_append (builddir : Str) (files more : List Str) (pattern : Str) :
    matching builddir (files ++ more) pattern = matching builddir files pattern ++
      (more.map fun file => builddir ++ '/' :: file).filter fun path => fnmatch pattern (basename path) := by
  simp only [matching,List.map_append,← List.cons_append,List.filter_append]

theorem dups_append (builddir : Str) (files more : List Str) (pattern : Str) :
    dups builddir files pattern ≤ dups builddir (files ++ more) pattern := by
  rw [dups,dups,matching_append,List.flatMap_append,List.count_append]
  exact Nat.le_add_right _ _

theorem basename_below (directory file : Str) : basename (directory ++ '/' :: file) = basename file := by
  have stop : ('/' :: directory.reverse).takeWhile (· ≠ '/') = [] := List.takeWhile_cons_of_neg (by decide)
  simp only [basename,List.rtakeWhile,List.reverse_append,List.reverse_cons,List.append_assoc,List.cons_append,
    List.nil_append,List.takeWhile_append]
  split
  · next whole =>
    rw [stop,List.append_nil]
    exact congrArg List.reverse ((List.takeWhile_prefix _).eq_of_length whole).symm
  · rfl

theorem basename_flat {file : Str} (flat : '/' ∉ file) : basename file = file := by
  refine List.rtakeWhile_eq_self_iff.mpr fun c member => decide_eq_true ?_
  rintro rfl
  exact flat member

/-- A new file that matches counts. -/
theorem dups_new {builddir : Str} {files : List Str} {pattern file : Str}
    (here : fnmatch pattern (basename file) = true) :
    dups builddir files pattern < dups builddir (files ++ [file]) pattern := by
  have found : (List.map (fun file => builddir ++ '/' :: file) [file]).filter
      (fun path => fnmatch pattern (basename path)) = [builddir ++ '/' :: file] := by
    rw [List.map_singleton,List.filter_singleton,basename_below,here]
    rfl
  rw [dups,dups,matching_append,found,List.flatMap_append,List.count_append,List.flatMap_singleton,List.count_append]
  have line : List.count '\n' ['\n'] = 1 := rfl
  omega

/-- A new file that does not match does not count. -/
theorem dups_other {builddir : Str} {files : List Str} {pattern file : Str}
    (elsewhere : fnmatch pattern (basename file) = false) :
    dups builddir (files ++ [file]) pattern = dups builddir files pattern := by
  have found : (List.map (fun file => builddir ++ '/' :: file) [file]).filter
      (fun path => fnmatch pattern (basename path)) = [] := by
    rw [List.map_singleton,List.filter_singleton,basename_below,elsewhere]
    rfl
  rw [dups,dups,matching_append,found,List.append_nil]

/-- A file that is there and matches counts. -/
theorem dups_pos {builddir : Str} {files : List Str} {pattern file : Str} (member : file ∈ files)
    (here : fnmatch pattern (basename file) = true) : 0 < dups builddir files pattern := by
  obtain ⟨before,after,rfl⟩ := List.append_of_mem member
  have split : before ++ file :: after = before ++ [file] ++ after := by simp
  rw [split]
  exact Nat.lt_of_lt_of_le (Nat.lt_of_le_of_lt (Nat.zero_le _) (dups_new here)) (dups_append _ _ _ _)

/-! ## Names -/

theorem threeDigits_isdigit {n : Nat} {c : Char} (member : c ∈ threeDigits n) : isdigit c = true := by
  rcases List.mem_append.mp member with zero | digit
  · rw [(List.mem_replicate.mp zero).2]
    decide
  · exact digits_isdigit digit

theorem threeDigits_injective {m n : Nat} (same : threeDigits m = threeDigits n) : m = n := by
  have value : ∀ n : Nat, Nat.ofDigitChars 10 (threeDigits n) 0 = n := by
    intro n
    have zeros : ∀ k : Nat, ∀ digits : Str, Nat.ofDigitChars 10 (List.replicate k '0' ++ digits) 0 =
      Nat.ofDigitChars 10 digits 0 := by
      intro k digits
      induction k with
      | zero => rfl
      | succ k ih =>
        rw [List.replicate_succ,List.cons_append,Nat.ofDigitChars_cons]
        exact ih
    rw [threeDigits,zeros]
    exact Nat.ofDigitChars_ten_toDigits
  rw [← value m,same,value n]

theorem threeDigits_absent (n : Nat) {c : Char} (other : isdigit c = false) : c ∉ threeDigits n := fun member => by
  rw [threeDigits_isdigit member] at other
  cases other

theorem threeDigits_head (n : Nat) (rest : Str) : (threeDigits n ++ rest).head? ≠ some '-' := by
  have nonempty : threeDigits n ≠ [] := by simp [threeDigits,Nat.toDigits_ne_nil]
  obtain ⟨c,cs,start⟩ := List.exists_cons_of_ne_nil nonempty
  rw [start]
  rintro ⟨⟩
  exact absurd (threeDigits_isdigit (n := n) (c := '-') (by rw [start]; exact List.mem_cons_self)) (by decide)

section
variable {sh : Echo} {a b : Attempt}

theorem logBase_flat : '/' ∉ logBase sh a := by
  have name : '/' ∉ capture (tr (sh.run a.name)) := by
    intro member
    obtain ⟨c,_,here⟩ := List.mem_map.mp ((List.rdropWhile_prefix _ _).subset member)
    split at here
    · cases here
    · next other => exact other here
  simp only [logBase,List.mem_append,List.mem_cons,not_or]
  exact ⟨threeDigits_absent _ (by decide),by decide,name,by decide⟩

theorem numberedName_flat (n : Nat) : '/' ∉ numberedName sh a n := by
  simp only [numberedName,List.mem_append,List.mem_cons,not_or]
  exact ⟨logBase_flat,by decide,decimal_absent _ (by decide) (by decide)⟩

/-- The texts the pattern of a step matches: a text accepted by what it makes of the
    name, `.log`, and any more. -/
theorem logPattern_accepts (sh : Echo) (a : Attempt) : ∃ as, ∀ text, fnmatch (logPattern sh a) text = true ↔
    ∃ before behind, text = before ++ (".log".toList ++ behind) ∧ accepts as before = true := by
  have shape : logPattern sh a = (threeDigits a.id ++ '-' :: capture (tr (sh.run a.name))) ++
    (".log".toList ++ ['*']) := by
    simp [logPattern,logBase]
  rw [shape]
  exact @fnmatch_tail '.' ['l','o','g'] (by decide) (by decide) _

/-- A pattern that matches the name without a number matches it with any. -/
theorem numberedName_matches (counted : fnmatch (logPattern sh a) (logBase sh a) = true) (n : Nat) :
    fnmatch (logPattern sh a) (basename (numberedName sh a n)) = true := by
  obtain ⟨as,accepts⟩ := logPattern_accepts sh a
  obtain ⟨before,behind,split,front⟩ := (accepts _).mp counted
  rw [basename_flat (numberedName_flat n)]
  exact (accepts _).mpr ⟨before,behind ++ '.' :: decimal n,by simp [numberedName,split],front⟩

/-- Where `.log` is found in a name with a number it is found without it. -/
theorem log_found {name before behind digits : Str} (digit : ∀ c ∈ digits, isdigit c = true)
    (found : name ++ ".log".toList ++ '.' :: digits = before ++ (".log".toList ++ behind)) :
    ∃ behind', name ++ ".log".toList = before ++ (".log".toList ++ behind') := by
  rw [List.append_assoc] at found
  rcases List.append_eq_append_iff.mp found with ⟨more,rfl,split⟩ | ⟨more,rfl,split⟩
  · -- It starts in what was appended to the name, where it is found once.
    have none : ∀ m : Str, digits ≠ m ++ (".log".toList ++ behind) := by
      rintro m rfl
      have := digit 'l' (by simp)
      cases this
    change '.' :: 'l' :: 'o' :: 'g' :: '.' :: digits = more ++ '.' :: 'l' :: 'o' :: 'g' :: behind at split
    rcases more with _ | ⟨_,_ | ⟨_,_ | ⟨_,_ | ⟨_,_ | ⟨_,m⟩⟩⟩⟩⟩
    · exact ⟨[],by simp⟩
    · simp at split
    · simp at split
    · simp at split
    · simp only [List.cons_append,List.nil_append,List.cons.injEq,true_and] at split
      exact absurd (digit 'l' (by simp [split])) (by decide)
    · simp only [List.cons_append,List.cons.injEq] at split
      exact absurd split.2.2.2.2.2 (none m)
  · have first : ".log".toList <+: more ++ ".log".toList ++ '.' :: digits := ⟨behind,by simpa using split⟩
    obtain ⟨behind',same⟩ := List.prefix_of_prefix_length_le first (List.prefix_append _ _) (by simp)
    exact ⟨behind',by rw [same]; simp⟩

/-- A pattern that matches the name with a number matches it without. -/
theorem numberedName_unnumbered {n : Nat}
    (matched : fnmatch (logPattern sh a) (basename (numberedName sh a n)) = true) :
    fnmatch (logPattern sh a) (logBase sh a) = true := by
  obtain ⟨as,accepts⟩ := logPattern_accepts sh a
  rw [basename_flat (numberedName_flat n)] at matched
  obtain ⟨before,behind,split,front⟩ := (accepts _).mp matched
  have digit : ∀ c ∈ decimal n, isdigit c = true := by
    intro c member
    rw [decimal,if_neg (by omega)] at member
    exact digits_isdigit member
  have shape : logBase sh a = (threeDigits a.id ++ '-' :: capture (tr (sh.run a.name))) ++ ".log".toList := by
    simp [logBase]
  rw [numberedName,shape] at split
  obtain ⟨behind',found⟩ := log_found digit split
  exact (accepts _).mpr ⟨before,behind',shape.trans found,front⟩

/-- What a substitution keeps. -/
theorem capture_keeps {ahead output : Str} {c : Char} (other : c ≠ '\n') (start : ahead ++ [c] <+: output) :
    ahead ++ [c] <+: capture output := by
  rcases List.prefix_or_prefix_of_prefix start (List.rdropWhile_prefix (· = '\n') output) with inside | outside
  · exact inside
  · rcases List.prefix_concat_iff.mp outside with same | ⟨more,rfl⟩
    · exact same ▸ List.prefix_rfl
    · -- The character would be one of the line breaks at the end.
      obtain ⟨behind,all⟩ := start
      have breaks : capture output ++ output.rtakeWhile (· = '\n') = output := List.rdropWhile_append_rtakeWhile
      have found : output.rtakeWhile (· = '\n') = more ++ [c] ++ behind := by
        refine List.append_cancel_left (breaks.trans (all.symm.trans ?_))
        simp [capture]
      have member : c ∈ output.rtakeWhile (· = '\n') := by simp [found]
      have same := List.mem_rtakeWhile_imp member
      exact absurd (of_decide_eq_true same) other

theorem firstName_starts : threeDigits a.id ++ ['-'] <+: firstName sh a := by
  apply capture_keeps (by decide)
  have shape : logBase sh a = (threeDigits a.id ++ ['-']) ++ (capture (tr (sh.run a.name)) ++ ".log".toList) := by
    simp [logBase]
  rw [shape]
  refine sh.keeps _ _ ?_ ?_
  · simp only [List.mem_append,List.mem_singleton,not_or]
    exact ⟨threeDigits_absent _ (by decide),by decide⟩
  · exact threeDigits_head _ _

theorem numberedName_starts (n : Nat) : threeDigits a.id ++ ['-'] <+: numberedName sh a n := by
  simp [numberedName,logBase]

/-- The number of a step is told from the names of its logs. -/
theorem id_unique {i j : Nat} {name : Str} (first : threeDigits i ++ ['-'] <+: name)
    (second : threeDigits j ++ ['-'] <+: name) :
    i = j := by
  obtain ⟨rest,rfl⟩ := first
  obtain ⟨rest',same⟩ := second
  rw [List.append_assoc,List.append_assoc] at same
  have found := strchr_append (threeDigits_absent j (c := '-') (by decide)) rest'
  rw [show '-' :: rest' = ['-'] ++ rest' from rfl,same] at found
  have found' := strchr_append (threeDigits_absent i (c := '-') (by decide)) rest
  rw [show threeDigits i ++ (['-'] ++ rest) = threeDigits i ++ '-' :: rest from rfl,found'] at found
  exact threeDigits_injective (Prod.mk.inj (Option.some.inj found)).1

/-- The name without a number is none with a number. -/
theorem firstName_length (n : Nat) : (firstName sh a).length < (numberedName sh a n).length := by
  have := (List.rdropWhile_prefix (· = '\n') (sh.run (logBase sh a))).length_le
  have := sh.shrinks (logBase sh a)
  simp only [firstName,capture,numberedName,List.length_append,List.length_cons]
  omega

end

/-- Names without brackets and escapes are counted. -/
theorem counted_plain {sh : Echo} {a : Attempt} (bracket : '[' ∉ logBase sh a) (escape : '\\' ∉ logBase sh a) :
    Counted sh a := by
  obtain ⟨as,accepts⟩ := logPattern_accepts sh a
  have numbered : fnmatch (logPattern sh a) (logBase sh a) = true := by
    have self := @fnmatch_self (logPattern sh a) (by simp [logPattern,bracket]) (by simp [logPattern,escape])
    obtain ⟨before,behind,split,front⟩ := (accepts _).mp self
    -- The star that matches itself is behind `.log`.
    have star : behind ≠ [] := by
      rintro rfl
      have last := congrArg List.getLast? split
      simp [logPattern] at last
    obtain ⟨behind,c,rfl⟩ := List.eq_nil_or_concat behind |>.resolve_left star
    rw [logPattern,List.concat_eq_append,← List.append_assoc,← List.append_assoc] at split
    exact (accepts _).mpr ⟨before,behind,by rw [(List.append_inj' split rfl).1,List.append_assoc],front⟩
  have echoed : sh.run (logBase sh a) = logBase sh a := by
    have kept := sh.keeps (logBase sh a) [] escape (threeDigits_head _ _)
    rw [List.append_nil] at kept
    exact (kept.eq_of_length_le (sh.shrinks _)).symm
  have first : firstName sh a = logBase sh a := by
    rw [firstName,echoed,capture,List.rdropWhile_eq_self_iff]
    intro nonempty
    simp [logBase]
  exact ⟨by rw [first,basename_flat logBase_flat]; exact numbered,numbered⟩

theorem logId_cases (sh : Echo) (builddir : Str) (files : List Str) (a : Attempt) :
    (0 < dups builddir files (logPattern sh a) ∧
      logId sh builddir files a = numberedName sh a (dups builddir files (logPattern sh a))) ∨
    (dups builddir files (logPattern sh a) = 0 ∧ logId sh builddir files a = firstName sh a) := by
  rw [logId]
  by_cases some : dups builddir files (logPattern sh a) > 0
  · exact .inl ⟨some,if_pos some⟩
  · exact .inr ⟨Nat.eq_zero_of_not_pos some,if_neg some⟩

/-! ## Runs -/

/-- The logs of a step are numbered below the number of files that its pattern
    matches. -/
def Numbered (sh : Echo) (steps : List Attempt) (builddir : Str) (files : List Str) : Prop :=
  ∀ a ∈ steps, ∀ n : Nat, numberedName sh a n ∈ files → n < dups builddir files (logPattern sh a)

section
variable {sh : Echo} {steps : List Attempt} (consistent : ∀ a ∈ steps, ∀ b ∈ steps, a.id = b.id → a.name = b.name)
include consistent

theorem attempt_unique {a b : Attempt} {name : Str} (member : a ∈ steps) (member' : b ∈ steps)
    (first : threeDigits a.id ++ ['-'] <+: name) (second : threeDigits b.id ++ ['-'] <+: name) : a = b := by
  have id := id_unique first second
  cases a
  cases b
  cases id
  cases consistent _ member _ member' rfl
  rfl

/-- An attempt creates a file that did not exist, and keeps the numbers low. -/
theorem attempt_fresh {builddir : Str} {files : List Str} (counted : ∀ a ∈ steps, Counted sh a)
    (numbered : Numbered sh steps builddir files) {b : Attempt} (member : b ∈ steps) :
    logId sh builddir files b ∉ files ∧ Numbered sh steps builddir (files ++ [logId sh builddir files b]) := by
  have matched : fnmatch (logPattern sh b) (basename (logId sh builddir files b)) = true := by
    rcases logId_cases sh builddir files b with ⟨_,name⟩ | ⟨_,name⟩ <;> rw [name]
    · exact numberedName_matches (counted b member).numbered _
    · exact (counted b member).first
  constructor
  · rcases logId_cases sh builddir files b with ⟨_,name⟩ | ⟨none,name⟩ <;> rw [name]
    · intro there
      exact absurd (numbered b member _ there) (Nat.lt_irrefl _)
    · intro there
      have := @dups_pos builddir _ _ _ there (counted b member).first
      omega
  · intro a member' n there
    rcases List.mem_append.mp there with old | now
    · exact Nat.lt_of_lt_of_le (numbered a member' n old) (dups_append _ _ _ _)
    have here : numberedName sh a n = logId sh builddir files b := List.mem_singleton.mp now
    rcases logId_cases sh builddir files b with ⟨_,name⟩ | ⟨_,name⟩
    · rw [name] at here
      have same := attempt_unique consistent member' member (numberedName_starts n)
        (by rw [here]; exact numberedName_starts _)
      subst same
      have number := decimal_injective (List.cons.inj (List.append_cancel_left here)).2
      have more := @dups_new builddir files _ _ matched
      omega
    · rw [name] at here
      have same := attempt_unique consistent member' member (numberedName_starts n)
        (by rw [here]; exact firstName_starts)
      subst same
      have longer := @firstName_length sh a n
      rw [here] at longer
      exact absurd longer (Nat.lt_irrefl _)

/-- Attempts create files that did not exist. -/
theorem run_fresh {builddir : Str} (counted : ∀ a ∈ steps, Counted sh a) (run : List Attempt) {files : List Str}
    (numbered : Numbered sh steps builddir files) (inside : ∀ a ∈ run, a ∈ steps) : Fresh sh builddir files run := by
  induction run generalizing files with
  | nil => exact True.intro
  | cons b run ih =>
    obtain ⟨new,numbered⟩ := attempt_fresh consistent counted numbered (inside b (by simp))
    exact ⟨new,ih numbered fun a member => inside a (by simp [member])⟩

end

/-- A step whose logs are not counted gets the name of one of them within three
    attempts. -/
theorem reused {sh : Echo} {a : Attempt} (uncounted : ¬ Counted sh a) : ¬ Fresh sh ['b'] [] [a,a,a] := by
  have alone : dups ['b'] [] (logPattern sh a) = 0 := by
    obtain ⟨as,accepts⟩ := logPattern_accepts sh a
    have other : fnmatch (logPattern sh a) (basename ['b']) = false := by
      apply Bool.eq_false_iff.mpr
      intro matched
      obtain ⟨before,behind,split,_⟩ := (accepts _).mp matched
      have single : basename ['b'] = ['b'] := by decide
      have length := congrArg List.length split
      rw [single,List.length_append,List.length_append] at length
      simp at length
      omega
    rw [dups,matching,List.map_nil,List.filter_singleton,other]
    rfl
  rintro ⟨_,second,third,_⟩
  have one : logId sh ['b'] [] a = firstName sh a :=
    ((logId_cases sh ['b'] [] a).resolve_left fun some => by omega).2
  rw [one] at second third
  rw [List.nil_append] at second third
  by_cases first : fnmatch (logPattern sh a) (basename (firstName sh a)) = true
  · -- The number that the first log accounts for is given out for good.
    have unnumbered : ∀ n, fnmatch (logPattern sh a) (basename (numberedName sh a n)) = false := fun n =>
      Bool.eq_false_iff.mpr fun matched => uncounted ⟨first,numberedName_unnumbered matched⟩
    have some := @dups_pos ['b'] _ _ _ (List.mem_singleton_self (firstName sh a)) first
    have two := ((logId_cases sh ['b'] [firstName sh a] a).resolve_right fun none => by omega).2
    have same := @dups_other ['b'] [firstName sh a] _ _
      (unnumbered (dups ['b'] [firstName sh a] (logPattern sh a)))
    rw [two] at third
    have three := ((logId_cases sh ['b'] ([firstName sh a] ++
      [numberedName sh a (dups ['b'] [firstName sh a] (logPattern sh a))]) a).resolve_right fun none => by omega).2
    rw [three,same] at third
    exact third (by simp)
  · have same := @dups_other ['b'] [] _ _ (Bool.eq_false_iff.mpr first)
    have two := ((logId_cases sh ['b'] ([] ++ [firstName sh a]) a).resolve_left fun some => by omega).2
    rw [List.nil_append] at two
    rw [two] at second
    exact second (List.mem_singleton_self _)

/-- Whatever the steps of an invocation and the order in which they are attempted
    again, every log gets a new name, if and only if the pattern made of the name of
    each step matches the names of its logs. -/
theorem log_id_fresh_iff (sh : Echo) (steps : List Attempt)
    (consistent : ∀ a ∈ steps, ∀ b ∈ steps, a.id = b.id → a.name = b.name) :
    (∀ (builddir : Str) (files : List Str) (run : List Attempt), Clear sh steps files → (∀ a ∈ run, a ∈ steps) →
      Fresh sh builddir files run) ↔ ∀ a ∈ steps, Counted sh a := by
  constructor
  · intro fresh a member
    by_contra uncounted
    refine reused uncounted (fresh ['b'] [] [a,a,a] (fun _ _ _ impossible => by cases impossible) ?_)
    intro b inside
    simp only [List.mem_cons,List.not_mem_nil,or_false,or_self] at inside
    rw [inside]
    exact member
  · intro counted builddir files run clear inside
    exact run_fresh consistent counted run (fun a member n there => absurd rfl ((clear a member _ there).2 n)) inside

/-- Two steps of robsd-regress. -/
def suites : List Attempt := [⟨1,"env".toList⟩,⟨12,"bin/cat".toList⟩]

theorem log_id_fresh_iff_suites : (∀ a ∈ suites, ∀ b ∈ suites, a.id = b.id → a.name = b.name) ∧
    ∀ (builddir : Str) (files : List Str) (run : List Attempt), Clear plainEcho suites files → (∀ a ∈ run, a ∈ suites) →
      Fresh plainEcho builddir files run := by
  refine ⟨by decide,(log_id_fresh_iff plainEcho suites (by decide)).mpr ?_⟩
  intro a member
  rcases List.mem_cons.mp member with rfl | member
  · exact counted_plain (by decide) (by decide)
  · rcases List.mem_singleton.mp member with rfl
    exact counted_plain (by decide) (by decide)

/-- A step of a canvas. -/
def bracketed : Attempt := ⟨1,['a','[','b',']']⟩

/-- The pattern made of its name does not match the name. -/
theorem bracketed_uncounted : ¬ Counted plainEcho bracketed := fun counted => by
  have numbered := counted.numbered
  revert numbered
  decide +kernel

/-- The log of a second or third attempt overwrites one that is there. -/
theorem log_id_bracketed :
    Clear plainEcho [bracketed] [] ∧ ¬ Fresh plainEcho ['b'] [] [bracketed,bracketed,bracketed] :=
  ⟨fun _ _ _ impossible => (by cases impossible),reused bracketed_uncounted⟩

end Robsd.LogId
