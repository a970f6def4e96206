import Mathlib.Data.List.TakeWhile
import Robsd.Strings

/-!
Interpolation of `${name}` references (interpolate.c). The lookup callback may
change what its argument points to, which is the state `σ` passed along; for a
lookup that only reads, `Expands` gives the meaning of a template independently
of the scan, and `interpolate_ok_iff` connects the two.
-/
namespace Robsd.Interpolate
open Robsd.Strings
universe u
variable {σ : Type u}

/-- The reasons for which an interpolation fails. -/
inductive Error where
  | expectedBrace
  | expectedClose
  | emptyName
  | unknownVariable (name : Str)
  | tooDeep
  deriving DecidableEq, Repr

/-- The text logged for a failure, behind the path and line number. -/
def Error.text : Error → String
  | .expectedBrace => "invalid substitution, expected '\x7b'"
  | .expectedClose => "invalid substitution, expected '\x7d'"
  | .emptyName => "invalid substitution, empty variable name"
  | .unknownVariable name => "invalid substitution, unknown variable '" ++ String.ofList name ++ "'"
  | .tooDeep => "invalid substitution, recursion too deep"

/-- The lookup callback: the value of a variable, or none where it is absent. -/
abbrev Lookup (σ : Type u) := Str → σ → Option Str × σ

/-- What is appended to the output buffer, or the failure, and the state after it. -/
abbrev Outcome (σ : Type u) := Except Error Str × σ

/-- Text put into the output buffer ahead of what follows. -/
def prepend (text : Str) (rest : Outcome σ) : Outcome σ := (rest.1.map (text ++ ·),rest.2)

/-- The scan of one template, where `inner` interpolates the values it refers
    to. With `ignore`, references that do not resolve are copied. -/
def interpolateInner (lookup : Lookup σ) (ignore : Bool) (inner : Str → σ → Outcome σ)
    (str : Str) (s : σ) : Outcome σ :=
  match _found : strchr '$' str with
  | none => (.ok str,s)
  | some (before,'{' :: vs) =>
    match _closed : strchr '}' vs with
    | none => (.error .expectedClose,s)
    | some (name,ve) =>
      if name = [] then (.error .emptyName,s)
      else match lookup name s with
        | (none,s) =>
          if ignore then
            prepend (before ++ '$' :: '{' :: name ++ ['}']) (interpolateInner lookup ignore inner ve s)
          else (.error (.unknownVariable name),s)
        | (some value,s) =>
          match inner value s with
          | (.error e,s) => (.error e,s)
          | (.ok out,s) => prepend (before ++ out) (interpolateInner lookup ignore inner ve s)
  | some _ => (.error .expectedBrace,s)
termination_by str.length
decreasing_by
  all_goals
    have first := strchr_length _found
    have second := strchr_length _closed
    simp only [List.length_cons] at first
    omega

/-- Interpolation with a number of levels left, counting the template itself;
    the depth counter of the source starts at none and fails on reaching five. -/
def interpolate (lookup : Lookup σ) (ignore : Bool) : Nat → Str → σ → Outcome σ
  | 0,_,s => (.error .tooDeep,s)
  | levels+1,str,s => interpolateInner lookup ignore (interpolate lookup ignore levels) str s

/-- `interpolate_str`, and `interpolate_buffer` up to where the output goes. -/
def interpolateStr (lookup : Lookup σ) (ignore : Bool) (str : Str) (s : σ) : Outcome σ :=
  interpolate lookup ignore 4 str s

/-- The next line of a buffer and what follows it. -/
def getline (text : Str) : Option (Str × Str) :=
  if text = [] then none
  else some (text.takeWhile (· ≠ '\n'),(text.dropWhile (· ≠ '\n')).drop 1)

theorem getline_length {text line rest : Str} (read : getline text = some (line,rest)) :
    rest.length < text.length := by
  unfold getline at read
  split at read
  · cases read
  · next nonempty =>
    cases read
    have := List.length_pos_iff.mpr nonempty
    have := (List.dropWhile_sublist (p := fun c => c ≠ '\n') (l := text)).length_le
    simp only [List.length_drop]
    omega

theorem getline_single {text line rest : Str} (read : getline text = some (line,rest)) : '\n' ∉ line := by
  unfold getline at read
  split at read
  · cases read
  · cases read
    intro member
    simpa using List.mem_takeWhile_imp member

/-- `interpolate_file` on the content of the file, from the given line number
    on: every line is a C string, so a NUL ends it. -/
def interpolateFile (lookup : Lookup σ) (ignore : Bool) (text : Str) (lno : Nat) (s : σ) :
    Except (Nat × Error) Str × σ :=
  match _read : getline text with
  | none => (.ok [],s)
  | some (line,rest) =>
    match interpolate lookup ignore 4 (line.takeWhile (· ≠ nul)) s with
    | (.error e,s) => (.error (lno+1,e),s)
    | (.ok out,s) =>
      let after := interpolateFile lookup ignore rest (lno+1) s
      (after.1.map (out ++ '\n' :: ·),after.2)
termination_by text.length
decreasing_by exact getline_length _read

/-- One turn of the scan. -/
theorem interpolateInner_eq (lookup : Lookup σ) (ignore : Bool) (inner : Str → σ → Outcome σ)
    (str : Str) (s : σ) :
    interpolateInner lookup ignore inner str s =
      match strchr '$' str with
      | none => (.ok str,s)
      | some (before,'{' :: vs) =>
        match strchr '}' vs with
        | none => (.error .expectedClose,s)
        | some (name,ve) =>
          if name = [] then (.error .emptyName,s)
          else match lookup name s with
            | (none,s) =>
              if ignore then
                prepend (before ++ '$' :: '{' :: name ++ ['}']) (interpolateInner lookup ignore inner ve s)
              else (.error (.unknownVariable name),s)
            | (some value,s) =>
              match inner value s with
              | (.error e,s) => (.error e,s)
              | (.ok out,s) => prepend (before ++ out) (interpolateInner lookup ignore inner ve s)
      | some _ => (.error .expectedBrace,s) := by
  rw [interpolateInner]
  split
  · next absent => simp only [absent]
  · next before vs found =>
    simp only [found]
    split
    · next absent => simp only [absent]
    · next name ve closed => simp only [closed]
  · next shape found =>
    rw [found]
    split
    · next impossible => cases impossible
    · next before vs same => exact absurd (Option.some.inj same) (shape before vs)
    · rfl

/-- Text without a reference is copied. -/
theorem interpolate_plain (lookup : Lookup σ) (ignore : Bool) (levels : Nat) {str : Str} (plain : '$' ∉ str)
    (s : σ) : interpolate lookup ignore (levels+1) str s = (.ok str,s) := by
  simp only [interpolate]
  rw [interpolateInner_eq,strchr_none.mpr plain]

/-- The scan of a template that starts with a reference behind plain text. -/
theorem interpolate_reference {lookup : Lookup σ} {ignore : Bool} {levels : Nat} {before name ve : Str}
    (first : '$' ∉ before) (close : '}' ∉ name) (named : name ≠ []) (s : σ) :
    interpolate lookup ignore (levels+1) (before ++ '$' :: '{' :: (name ++ '}' :: ve)) s =
      match lookup name s with
      | (none,s) =>
        if ignore then
          prepend (before ++ '$' :: '{' :: name ++ ['}']) (interpolate lookup ignore (levels+1) ve s)
        else (.error (.unknownVariable name),s)
      | (some value,s) =>
        match interpolate lookup ignore levels value s with
        | (.error e,s) => (.error e,s)
        | (.ok out,s) => prepend (before ++ out) (interpolate lookup ignore (levels+1) ve s) := by
  simp only [interpolate]
  rw [interpolateInner_eq,strchr_append first]
  simp only [strchr_append close,named,↓reduceIte]

/-- A reference that resolves is replaced. -/
theorem interpolate_resolved {lookup : Lookup σ} {ignore : Bool} {levels : Nat} {name value out ve : Str} {s s' s'' : σ}
    (close : '}' ∉ name) (named : name ≠ []) (resolves : lookup name s = (some value,s'))
    (inside : interpolate lookup ignore levels value s' = (.ok out,s'')) :
    interpolate lookup ignore (levels+1) ('$' :: '{' :: (name ++ '}' :: ve)) s =
      prepend out (interpolate lookup ignore (levels+1) ve s'') := by
  have scan := @interpolate_reference _ lookup ignore levels [] name ve List.not_mem_nil close named s
  simp only [List.nil_append,resolves,inside] at scan
  exact scan

/-- A reference that does not resolve is copied where that is ignored. -/
theorem interpolate_ignored {lookup : Lookup σ} {levels : Nat} {name ve : Str} {s s' : σ} (close : '}' ∉ name)
    (named : name ≠ []) (fails : lookup name s = (none,s')) :
    interpolate lookup true (levels+1) ('$' :: '{' :: (name ++ '}' :: ve)) s =
      prepend ('$' :: '{' :: name ++ ['}']) (interpolate lookup true (levels+1) ve s') := by
  have scan := @interpolate_reference _ lookup true levels [] name ve List.not_mem_nil close named s
  simp only [List.nil_append,fails,↓reduceIte] at scan
  exact scan

/-! ## Simulation -/

section
variable {τ : Type u} {R E : σ → τ → Prop}

/-- Outcomes with the same answer; the states are related by `R` after a success
    and by `E` after a failure. -/
inductive Agree (R E : σ → τ → Prop) : Outcome σ → Outcome τ → Prop
  | ok {out : Str} {s : σ} {t : τ} (related : R s t) : Agree R E (.ok out,s) (.ok out,t)
  | error {e : Error} {s : σ} {t : τ} (related : E s t) : Agree R E (.error e,s) (.error e,t)

theorem agree_iff {o : Outcome σ} {o' : Outcome τ} :
    Agree R E o o' ↔ o.1 = o'.1 ∧ (∀ out, o.1 = .ok out → R o.2 o'.2) ∧ ∀ e, o.1 = .error e → E o.2 o'.2 := by
  constructor
  · rintro (related | related)
    · exact ⟨rfl,fun _ _ => related,nofun⟩
    · exact ⟨rfl,nofun,fun _ _ => related⟩
  · rintro ⟨same,done,failed⟩
    obtain ⟨answer,s⟩ := o
    obtain ⟨answer',t⟩ := o'
    cases same
    cases answer with
    | ok out => exact .ok (done out rfl)
    | error e => exact .error (failed e rfl)

theorem prepend_agree {o : Outcome σ} {o' : Outcome τ} (text : Str) (agree : Agree R E o o') :
    Agree R E (prepend text o) (prepend text o') := by
  cases agree with
  | ok related => exact .ok related
  | error related => exact .error related

/-- Two scans with the same answers give the same result. -/
theorem interpolateInner_simulates {lookup : Lookup σ} {lookup' : Lookup τ} {ignore : Bool}
    {inner : Str → σ → Outcome σ} {inner' : Str → τ → Outcome τ} (broken : ∀ s t, R s t → E s t)
    (looks : ∀ name s t, R s t → (lookup name s).1 = (lookup' name t).1 ∧ R (lookup name s).2 (lookup' name t).2)
    (nested : ∀ value s t, R s t → Agree R E (inner value s) (inner' value t)) :
    ∀ (str : Str) (s : σ) (t : τ), R s t →
      Agree R E (interpolateInner lookup ignore inner str s) (interpolateInner lookup' ignore inner' str t) := by
  intro str
  induction size : str.length using Nat.strongRecOn generalizing str with
  | _ n ih =>
    intro s t related
    rw [interpolateInner_eq,interpolateInner_eq lookup']
    split
    · exact .ok related
    · next before vs found =>
      split
      · exact .error (broken s t related)
      · next name ve closed =>
        have smaller : ve.length < n := by
          have := strchr_length found
          have := strchr_length closed
          simp only [List.length_cons] at *
          omega
        by_cases empty : name = []
        · simp only [empty,↓reduceIte]
          exact .error (broken s t related)
        simp only [empty,↓reduceIte]
        obtain ⟨same,kept⟩ := looks name s t related
        have later := fun s t => ih ve.length smaller ve rfl s t
        cases looked : lookup name s with
        | mk value s₁ =>
          cases looked' : lookup' name t with
          | mk value' t₁ =>
            rw [looked,looked'] at same kept
            dsimp only at same kept
            subst same
            cases value with
            | none =>
              cases ignore with
              | false => exact .error (broken s₁ t₁ kept)
              | true => exact prepend_agree _ (later s₁ t₁ kept)
            | some v =>
              dsimp only
              have inside := nested v s₁ t₁ kept
              generalize inner v s₁ = o at inside
              generalize inner' v t₁ = o' at inside
              cases inside with
              | ok kept => exact prepend_agree _ (later _ _ kept)
              | error broken => exact .error broken
    · exact .error (broken s t related)

/-- Related states stay related, however the interpolation ends. -/
theorem interpolate_simulates {lookup : Lookup σ} {lookup' : Lookup τ} {ignore : Bool}
    (looks : ∀ name s t, R s t → (lookup name s).1 = (lookup' name t).1 ∧ R (lookup name s).2 (lookup' name t).2) :
    ∀ (levels : Nat) (str : Str) (s : σ) (t : τ), R s t →
      Agree R R (interpolate lookup ignore levels str s) (interpolate lookup' ignore levels str t)
  | 0,_,_,_,related => .error related
  | levels+1,str,s,t,related =>
    interpolateInner_simulates (fun _ _ => id) looks (interpolate_simulates looks levels) str s t related

theorem interpolateStr_simulates {lookup : Lookup σ} {lookup' : Lookup τ}
    (looks : ∀ name s t, R s t → (lookup name s).1 = (lookup' name t).1 ∧ R (lookup name s).2 (lookup' name t).2)
    (ignore : Bool) (str : Str) {s : σ} {t : τ} (related : R s t) :
    (interpolateStr lookup ignore str s).1 = (interpolateStr lookup' ignore str t).1 ∧
      R (interpolateStr lookup ignore str s).2 (interpolateStr lookup' ignore str t).2 := by
  have both : ∀ {o : Outcome σ} {o' : Outcome τ}, Agree R R o o' → o.1 = o'.1 ∧ R o.2 o'.2 := by
    rintro _ _ (related | related)
    all_goals exact ⟨rfl,related⟩
  exact both (interpolate_simulates looks 4 str s t related)

theorem interpolateInner_invariant {I : σ → Prop} {lookup : Lookup σ} {ignore : Bool} {inner : Str → σ → Outcome σ}
    (looks : ∀ name s, I s → I (lookup name s).2) (nested : ∀ value s, I s → I (inner value s).2) (str : Str) {s : σ}
    (holds : I s) : I (interpolateInner lookup ignore inner str s).2 := by
  have agree := @interpolateInner_simulates _ _ (fun s t => s = t ∧ I s) (fun _ t => I t) lookup
    lookup ignore inner inner (fun s t related => related.1 ▸ related.2)
    (by rintro name s _ ⟨rfl,holds⟩; exact ⟨rfl,rfl,looks name s holds⟩)
    (by
      rintro value s _ ⟨rfl,holds⟩
      exact agree_iff.mpr ⟨rfl,fun _ _ => ⟨rfl,nested value s holds⟩,fun _ _ => nested value s holds⟩)
    str s s ⟨rfl,holds⟩
  obtain ⟨_,done,failed⟩ := agree_iff.mp agree
  cases answer : (interpolateInner lookup ignore inner str s).1 with
  | ok out => exact (done out answer).2
  | error e => exact failed e answer

theorem interpolate_invariant {I : σ → Prop} {lookup : Lookup σ} {ignore : Bool}
    (looks : ∀ name s, I s → I (lookup name s).2) : ∀ (levels : Nat) (str : Str) {s : σ}, I s →
      I (interpolate lookup ignore levels str s).2
  | 0,_,_,holds => holds
  | levels+1,str,_,holds =>
    interpolateInner_invariant looks (fun value _ holds => interpolate_invariant looks levels value holds) str holds

/-- What every lookup preserves, an interpolation preserves. -/
theorem interpolateStr_invariant {I : σ → Prop} {lookup : Lookup σ} (looks : ∀ name s, I s → I (lookup name s).2)
    (ignore : Bool) (str : Str) {s : σ} (holds : I s) : I (interpolateStr lookup ignore str s).2 :=
  interpolate_invariant looks 4 str holds

theorem interpolateFile_invariant {I : σ → Prop} {lookup : Lookup σ} {ignore : Bool}
    (looks : ∀ name s, I s → I (lookup name s).2) (text : Str) (lno : Nat) {s : σ} (holds : I s) :
    I (interpolateFile lookup ignore text lno s).2 := by
  induction size : text.length using Nat.strongRecOn generalizing text lno s with
  | _ n ih =>
    rw [interpolateFile]
    split
    · exact holds
    · next line rest read =>
      have after := @interpolate_invariant _ I lookup ignore looks 4 (line.takeWhile (· ≠ nul)) _ holds
      split
      · next run => rw [run] at after; exact after
      · next run =>
        rw [run] at after
        exact ih rest.length (size ▸ getline_length read) rest (lno+1) after rfl

/-! ## Simulation up to a state that stays -/

/-- As long as the state is not one of those that stay, both scans go alike. -/
theorem interpolateInner_until {B : σ → Prop} {lookup : Lookup σ} {lookup' : Lookup τ} {ignore : Bool}
    {inner : Str → σ → Outcome σ} {inner' : Str → τ → Outcome τ}
    (looks : ∀ name s t, R s t →
      ((lookup name s).1 = (lookup' name t).1 ∧ R (lookup name s).2 (lookup' name t).2) ∨ B (lookup name s).2)
    (nested : ∀ value s t, R s t → Agree R R (inner value s) (inner' value t) ∨ B (inner value s).2)
    (stays : ∀ name s, B s → B (lookup name s).2) (innerStays : ∀ value s, B s → B (inner value s).2) :
    ∀ (str : Str) (s : σ) (t : τ), R s t →
      Agree R R (interpolateInner lookup ignore inner str s) (interpolateInner lookup' ignore inner' str t) ∨
        B (interpolateInner lookup ignore inner str s).2 := by
  intro str
  induction size : str.length using Nat.strongRecOn generalizing str with
  | _ n ih =>
    intro s t related
    have onwards := fun str s (broken : B s) => @interpolateInner_invariant _ B lookup ignore inner stays
      innerStays str s broken
    rw [interpolateInner_eq,interpolateInner_eq lookup']
    split
    · exact .inl (.ok related)
    · next before vs found =>
      split
      · exact .inl (.error related)
      · next name ve closed =>
        have smaller : ve.length < n := by
          have := strchr_length found
          have := strchr_length closed
          simp only [List.length_cons] at *
          omega
        by_cases empty : name = []
        · simp only [empty,↓reduceIte]
          exact .inl (.error related)
        simp only [empty,↓reduceIte]
        have later : ∀ text s t, R s t →
            Agree R R (prepend text (interpolateInner lookup ignore inner ve s))
                (prepend text (interpolateInner lookup' ignore inner' ve t)) ∨
              B (prepend text (interpolateInner lookup ignore inner ve s)).2 := fun text s t related =>
          (ih ve.length smaller ve rfl s t related).imp_left (prepend_agree text)
        have look := looks name s t related
        cases looked : lookup name s with
        | mk value s₁ =>
          cases looked' : lookup' name t with
          | mk value' t₁ =>
            rw [looked,looked'] at look
            dsimp only at look
            rcases look with ⟨rfl,kept⟩ | broken
            · cases value with
              | none =>
                cases ignore with
                | false => exact .inl (.error kept)
                | true => exact later _ s₁ t₁ kept
              | some v =>
                dsimp only
                have inside := nested v s₁ t₁ kept
                cases run : inner v s₁ with
                | mk answer s₂ =>
                  cases run' : inner' v t₁ with
                  | mk answer' t₂ =>
                    rw [run,run'] at inside
                    rcases inside with agree | broken
                    · cases agree with
                      | ok kept => exact later _ _ _ kept
                      | error kept => exact .inl (.error kept)
                    · cases answer with
                      | error e => exact .inr broken
                      | ok out => exact .inr (onwards ve s₂ broken)
            · refine .inr ?_
              cases value with
              | none =>
                cases ignore with
                | false => exact broken
                | true => exact onwards ve s₁ broken
              | some v =>
                have inside := innerStays v s₁ broken
                dsimp only
                cases run : inner v s₁ with
                | mk answer s₂ =>
                  rw [run] at inside
                  cases answer with
                  | error e => exact inside
                  | ok out => exact onwards ve s₂ inside
    · exact .inl (.error related)

theorem interpolate_until {B : σ → Prop} {lookup : Lookup σ} {lookup' : Lookup τ} {ignore : Bool}
    (looks : ∀ name s t, R s t →
      ((lookup name s).1 = (lookup' name t).1 ∧ R (lookup name s).2 (lookup' name t).2) ∨ B (lookup name s).2)
    (stays : ∀ name s, B s → B (lookup name s).2) : ∀ (levels : Nat) (str : Str) (s : σ) (t : τ), R s t →
      Agree R R (interpolate lookup ignore levels str s) (interpolate lookup' ignore levels str t) ∨
        B (interpolate lookup ignore levels str s).2
  | 0,_,_,_,related => .inl (.error related)
  | levels+1,str,s,t,related =>
    interpolateInner_until looks (interpolate_until looks stays levels) stays
      (fun value _ broken => interpolate_invariant stays levels value broken) str s t related

end

/-! ## Names that are asked for -/

/-- The callback that keeps a record of the names it was asked for. -/
def recording (lookup : Lookup σ) : Lookup (σ × List Str) := fun name s =>
  ((lookup name s.1).1,(lookup name s.1).2,name :: s.2)

/-- Keeping a record makes no difference. -/
theorem recording_answer (lookup : Lookup σ) (ignore : Bool) (str : Str) (s : σ) (names : List Str) :
    (interpolateStr (recording lookup) ignore str (s,names)).1 = (interpolateStr lookup ignore str s).1 ∧
      (interpolateStr (recording lookup) ignore str (s,names)).2.1 = (interpolateStr lookup ignore str s).2 :=
  interpolateStr_simulates (R := fun (s : σ × List Str) (t : σ) => s.1 = t)
    (by rintro name s _ rfl; exact ⟨rfl,rfl⟩) ignore str rfl

/-- Lookups that differ on one name give the same interpolation unless it is asked
    for. -/
theorem recording_until {τ : Type u} {R : σ → τ → Prop} {lookup : Lookup σ} {lookup' : Lookup τ} {bad : Str}
    (looks : ∀ name s t, name ≠ bad → R s t → (lookup name s).1 = (lookup' name t).1 ∧
      R (lookup name s).2 (lookup' name t).2)
    (ignore : Bool) (str : Str) {s : σ} {t : τ} (related : R s t)
    (apart : bad ∉ (interpolateStr (recording lookup) ignore str (s,[])).2.2) :
    (interpolateStr lookup ignore str s).1 = (interpolateStr lookup' ignore str t).1 ∧
      R (interpolateStr lookup ignore str s).2 (interpolateStr lookup' ignore str t).2 := by
  have agree := (@interpolate_until _ τ (fun s t => R s.1 t) (fun s => bad ∈ s.2) (recording lookup) lookup' ignore
    (by
      intro name s t related
      by_cases same : name = bad
      · exact .inr (same ▸ List.mem_cons_self)
      · exact .inl (looks name s.1 t same related))
    (fun _ _ asked => List.mem_cons_of_mem _ asked) 4 str (s,[]) t related).resolve_right apart
  obtain ⟨answer,state⟩ := recording_answer lookup ignore str s []
  obtain ⟨same,done,failed⟩ := agree_iff.mp agree
  refine ⟨answer.symm.trans same,?_⟩
  rw [← state]
  cases ended : (interpolateStr (recording lookup) ignore str (s,[])).1 with
  | ok out => exact done out ended
  | error e => exact failed e ended

/-! ## Lookups that only read -/

/-- The callback of a lookup that changes nothing. -/
def reading (f : Str → Option Str) : Lookup σ := fun name s => (f name,s)

/-- `Expands f n str out`: substituting the values of `f` in `str`, at most `n`
    levels deep, gives `out`. -/
inductive Expands (f : Str → Option Str) : Nat → Str → Str → Prop
  | plain {levels : Nat} {str : Str} (none : '$' ∉ str) : Expands f (levels+1) str str
  | reference {levels : Nat} {before name value out ve rest : Str} (first : '$' ∉ before)
      (close : '}' ∉ name) (named : name ≠ []) (resolves : f name = some value)
      (inner : Expands f levels value out) (tail : Expands f (levels+1) ve rest) :
      Expands f (levels+1) (before ++ '$' :: '{' :: (name ++ '}' :: ve)) (before ++ out ++ rest)

private theorem inner_sound {f : Str → Option Str} {levels : Nat} {inner : Str → σ → Outcome σ}
    (sound : ∀ value s out, (inner value s).1 = .ok out → Expands f levels value out) :
    ∀ (str : Str) (s : σ) (out : Str),
      (interpolateInner (reading f) false inner str s).1 = .ok out → Expands f (levels+1) str out := by
  intro str
  induction size : str.length using Nat.strongRecOn generalizing str with
  | _ n ih =>
    intro s out run
    rw [interpolateInner_eq] at run
    split at run
    · next absent =>
      cases run
      exact .plain (strchr_none.mp absent)
    · next before vs found =>
      obtain ⟨split,first⟩ := strchr_some.mp found
      split at run
      · cases run
      · next name ve closed =>
        obtain ⟨shape,close⟩ := strchr_some.mp closed
        split at run
        · cases run
        · next named =>
          simp only [reading] at run
          split at run
          · simp at run
          · next value s' looked =>
            have resolves : f name = some value := (Prod.mk.inj looked).1
            split at run
            · cases run
            · next result s'' substituted =>
              have smaller : ve.length < n := by
                have := strchr_length found
                have := strchr_length closed
                simp only [List.length_cons] at *
                omega
              simp only [prepend] at run
              cases after : (interpolateInner (reading f) false inner ve s'').1 with
              | error e => rw [after] at run; cases run
              | ok rest =>
                rw [after] at run
                cases run
                rw [split,shape]
                exact .reference first close named resolves
                  (sound value s' result (by rw [substituted])) (ih ve.length smaller ve rfl s'' rest after)
    · cases run

private theorem interpolate_sound {f : Str → Option Str} : ∀ (levels : Nat) (str : Str) (s : σ) (out : Str),
    (interpolate (reading f) false levels str s).1 = .ok out → Expands f levels str out
  | 0,_,_,_,run => by cases run
  | levels+1,str,s,out,run => inner_sound (interpolate_sound levels) str s out run

private theorem interpolate_complete {f : Str → Option Str} {levels : Nat} {str out : Str}
    (expands : Expands f levels str out) : ∀ s : σ, interpolate (reading f) false levels str s = (.ok out,s) := by
  induction expands with
  | plain none => exact fun s => interpolate_plain _ _ _ none s
  | @reference levels before name value out ve rest first close named resolves _ _ inner tail =>
    intro s
    rw [interpolate_reference first close named]
    simp only [reading,resolves,inner s,tail s,prepend,Except.map]

/-- Interpolation succeeds exactly with what the template expands to. -/
theorem interpolate_ok_iff (f : Str → Option Str) (levels : Nat) (str : Str) (s : σ) (out : Str) :
    (interpolate (reading f) false levels str s).1 = .ok out ↔ Expands f levels str out :=
  ⟨interpolate_sound levels str s out,fun expands => by rw [interpolate_complete expands s]⟩

/-- A lookup that changes nothing leaves the state alone when interpolation succeeds. -/
theorem interpolate_ok_state {f : Str → Option Str} {levels : Nat} {str out : Str} {s : σ}
    (run : (interpolate (reading f) false levels str s).1 = .ok out) :
    interpolate (reading f) false levels str s = (.ok out,s) :=
  interpolate_complete (interpolate_sound levels str s out run) s

theorem expands_unique {f : Str → Option Str} {levels : Nat} {str out out' : Str}
    (first : Expands f levels str out) (second : Expands f levels str out') : out = out' := by
  have run := interpolate_complete first ()
  rw [interpolate_complete second ()] at run
  exact Except.ok.inj (Prod.mk.inj run.symm).1

/-- The characters of an expansion come from the template or from the values. -/
theorem expands_chars {f : Str → Option Str} {levels : Nat} {str out : Str} (expands : Expands f levels str out)
    {P : Char → Prop} (template : ∀ c ∈ str, P c) (values : ∀ name value, f name = some value → ∀ c ∈ value, P c) :
    ∀ c ∈ out, P c := by
  induction expands with
  | plain _ => exact template
  | @reference levels before name value out ve rest _ _ _ resolves _ _ inner tail =>
    intro c member
    simp only [List.mem_append] at member
    rcases member with (ahead | substituted) | behind
    · exact template c (by simp [ahead])
    · exact inner (values name value resolves) c substituted
    · exact tail (fun c member => template c (by simp [member])) c behind

/-- An expansion contains no dollar sign. -/
theorem expands_no_dollar {f : Str → Option Str} {levels : Nat} {str out : Str}
    (expands : Expands f levels str out) : '$' ∉ out := by
  induction expands with
  | plain none => exact none
  | reference first _ _ _ _ _ inner tail => simp [first,inner,tail]

/-- The expansion of a template that starts with a reference behind plain text. -/
theorem expands_reference_iff {f : Str → Option Str} {levels : Nat} {before name ve out : Str}
    (first : '$' ∉ before) (close : '}' ∉ name) (named : name ≠ []) :
    Expands f (levels+1) (before ++ '$' :: '{' :: (name ++ '}' :: ve)) out ↔
      ∃ value inner rest, f name = some value ∧ Expands f levels value inner ∧
        Expands f (levels+1) ve rest ∧ out = before ++ inner ++ rest := by
  constructor
  · intro expands
    generalize template : before ++ '$' :: '{' :: (name ++ '}' :: ve) = str at expands
    cases expands with
    | plain none => subst template; simp at none
    | @reference _ before' name' value inner ve' rest first' close' _ resolves expanded tail =>
      have dollar := strchr_append first' ('{' :: (name' ++ '}' :: ve'))
      rw [← template,strchr_append first] at dollar
      simp only [Option.some.injEq,Prod.mk.injEq,List.cons.injEq,true_and] at dollar
      have brace := strchr_append close' ve'
      rw [← dollar.2,strchr_append close] at brace
      simp only [Option.some.injEq,Prod.mk.injEq] at brace
      exact ⟨value,inner,rest,by rw [brace.1]; exact resolves,expanded,by rw [brace.2]; exact tail,by rw [dollar.1]⟩
  · rintro ⟨value,inner,rest,resolves,expanded,tail,rfl⟩
    exact .reference first close named resolves expanded tail

/-- Text without a reference expands to itself only. -/
theorem expands_plain_iff {f : Str → Option Str} {levels : Nat} {str out : Str} (plain : '$' ∉ str) :
    Expands f (levels+1) str out ↔ out = str := by
  constructor
  · intro expands
    cases expands with
    | plain _ => rfl
    | reference => simp at plain
  · rintro rfl
    exact .plain plain

theorem getline_line {line : Str} (single : '\n' ∉ line) (rest : Str) :
    getline (line ++ '\n' :: rest) = some (line,rest) := by
  have inside : ∀ c ∈ line, decide (c ≠ '\n') = true := by
    intro c member
    exact decide_eq_true (by rintro rfl; exact single member)
  simp only [getline,List.append_eq_nil_iff,reduceCtorEq,and_false,↓reduceIte]
  rw [List.takeWhile_append_of_pos inside,List.dropWhile_append_of_pos inside]
  simp

/-- A file is interpolated line by line. -/
theorem interpolateFile_lines (f : Str → Option Str) : ∀ (lines : List (Str × Str)) (lno : Nat),
    (∀ l ∈ lines, '\n' ∉ l.1 ∧ nul ∉ l.1 ∧ Expands f 4 l.1 l.2) →
    (interpolateFile (reading f) false (lines.flatMap fun l => l.1 ++ ['\n']) lno ()).1 =
      .ok (lines.flatMap fun l => l.2 ++ ['\n'])
  | [],lno,_ => by
    rw [interpolateFile]
    rfl
  | (line,out) :: lines,lno,all => by
    obtain ⟨single,noNul,expands⟩ := all (line,out) (by simp)
    have rest := interpolateFile_lines f lines (lno+1) fun l member => all l (by simp [member])
    have read := getline_line single (lines.flatMap fun l => l.1 ++ ['\n'])
    have whole : line.takeWhile (· ≠ nul) = line := by
      refine List.takeWhile_eq_self_iff.mpr fun c member => decide_eq_true ?_
      rintro rfl
      exact noNul member
    have shape : ((line,out) :: lines).flatMap (fun l => l.1 ++ ['\n']) = line ++ '\n' :: lines.flatMap fun l =>
      l.1 ++ ['\n'] := by
      simp
    rw [shape,interpolateFile]
    split
    · next impossible => rw [read] at impossible; cases impossible
    · next found =>
      rw [read] at found
      cases found
      rw [whole,interpolate_complete expands ()]
      simp only [rest,Except.map,List.flatMap_cons,List.append_assoc,List.cons_append,List.nil_append]

end Robsd.Interpolate
