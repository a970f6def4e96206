import Robsd.Interpolate

/-!
What interpolation means without its bound: the recursive substitution of values
for references. The depth counter of `struct interpolate_context` (interpolate.c)
is shared by all substitutions of one call and all lines of one file; it accepts
exactly the templates whose substitution nests at most four levels.
-/
namespace Robsd.Substitution
open Robsd.Strings
open Robsd.Interpolate
universe u
variable {σ : Type u}

/-! ## The context -/

/-- The part of `struct interpolate_context` that changes, next to what the
    argument of the callback points to. -/
structure Context (σ : Type u) where
  depth : Nat
  arg : σ

/-- The callback, which does not see the context. -/
def onArg (lookup : Lookup σ) : Lookup (Context σ) := fun name c =>
  let found := lookup name c.arg
  (found.1,{ c with arg := found.2 })

/-- `interpolate` with its counter. The number of nested calls is bounded for
    Lean; `contextInterpolate_calls` shows that the counter never needs more than five. -/
def contextInterpolate (lookup : Lookup σ) (ignore : Bool) : Nat → Str → Context σ → Outcome (Context σ)
  | 0,_,c => (.error .tooDeep,c)
  | calls+1,str,c =>
    let c := { c with depth := c.depth+1 }
    if c.depth = 5 then (.error .tooDeep,c)
    else
      let out := interpolateInner (onArg lookup) ignore (contextInterpolate lookup ignore calls) str c
      (out.1,{ out.2 with depth := out.2.depth-1 })

/-- `interpolate_str`. -/
def contextStr (lookup : Lookup σ) (ignore : Bool) (str : Str) (s : σ) : Except Error Str :=
  (contextInterpolate lookup ignore 5 str ⟨0,s⟩).1

/-- The loop of `interpolate_file` over the lines that are left. -/
def contextFileLoop (lookup : Lookup σ) (ignore : Bool) (text : Str) (lno : Nat) (c : Context σ) :
    Except (Nat × Error) Str :=
  match _read : getline text with
  | none => .ok []
  | some (line,rest) =>
    match contextInterpolate lookup ignore 5 (line.takeWhile (· ≠ nul)) c with
    | (.error e,_) => .error (lno+1,e)
    | (.ok out,c) => (contextFileLoop lookup ignore rest (lno+1) c).map (out ++ '\n' :: ·)
termination_by text.length
decreasing_by exact getline_length _read

/-- `interpolate_file` on the content of the file. -/
def contextFile (lookup : Lookup σ) (ignore : Bool) (text : Str) (lno : Nat) (s : σ) : Except (Nat × Error) Str :=
  contextFileLoop lookup ignore text lno ⟨0,s⟩

/-- The counter allows as many levels as it is away from five, and is back where
    it was after a success. -/
theorem contextInterpolate_levels (lookup : Lookup σ) (ignore : Bool) :
    ∀ (levels calls : Nat) (str : Str) (c : Context σ),
    c.depth+levels = 4 → levels < calls →
      (contextInterpolate lookup ignore calls str c).1 = (interpolate lookup ignore levels str c.arg).1 ∧
      ∀ out, (contextInterpolate lookup ignore calls str c).1 = .ok out →
        (contextInterpolate lookup ignore calls str c).2 = ⟨c.depth,(interpolate lookup ignore levels str c.arg).2⟩
  | _,0,_,_,_,within => absurd within (by omega)
  | 0,calls+1,str,c,full,_ => by
    have last : c.depth+1 = 5 := by omega
    simp only [contextInterpolate,last,↓reduceIte,interpolate,true_and]
    intro _ impossible
    cases impossible
  | levels+1,calls+1,str,c,room,within => by
    have open_ : ¬ c.depth+1 = 5 := by omega
    have nested := fun value (d : Context σ) (s : σ) (related : d = ⟨c.depth+1,s⟩) =>
      contextInterpolate_levels lookup ignore levels calls value d (by simp only [related]; omega) (by omega)
    have looks : ∀ name (d : Context σ) (s : σ), d = ⟨c.depth+1,s⟩ →
        (onArg lookup name d).1 = (lookup name s).1 ∧ (onArg lookup name d).2 = ⟨c.depth+1,(lookup name s).2⟩ := by
      rintro name _ s rfl
      exact ⟨rfl,rfl⟩
    have inner : ∀ value (d : Context σ) (s : σ), d = ⟨c.depth+1,s⟩ →
        Agree (fun d s => d = ⟨c.depth+1,s⟩) (fun _ _ => True) (contextInterpolate lookup ignore calls value d)
          (interpolate lookup ignore levels value s) := by
      intro value d s related
      obtain ⟨same,kept⟩ := nested value d s related
      subst related
      exact agree_iff.mpr ⟨same,kept,fun _ _ => trivial⟩
    obtain ⟨answer,state,_⟩ := agree_iff.mp
      (interpolateInner_simulates (fun _ _ _ => trivial) looks inner str ⟨c.depth+1,c.arg⟩ c.arg rfl)
    simp only [contextInterpolate,open_,↓reduceIte,interpolate]
    refine ⟨answer,?_⟩
    intro out run
    rw [state out run]
    rfl

theorem contextStr_eq (lookup : Lookup σ) (ignore : Bool) (str : Str) (s : σ) :
    contextStr lookup ignore str s = (interpolateStr lookup ignore str s).1 :=
  (contextInterpolate_levels lookup ignore 4 5 str ⟨0,s⟩ rfl (by decide)).1

/-- No more than five calls are ever nested. -/
theorem contextInterpolate_calls (lookup : Lookup σ) (ignore : Bool) {calls : Nat} (enough : 5 ≤ calls)
    (str : Str) (s : σ) :
    (contextInterpolate lookup ignore calls str ⟨0,s⟩).1 = contextStr lookup ignore str s := by
  rw [contextStr_eq]
  exact (contextInterpolate_levels lookup ignore 4 calls str ⟨0,s⟩ rfl (by omega)).1

/-! ## Templates -/

/-- Every dollar sign starts a reference; the names they refer to, in order. -/
inductive WellFormed : Str → List Str → Prop
  | plain {str : Str} (none : '$' ∉ str) : WellFormed str []
  | reference {before name ve : Str} {names : List Str} (first : '$' ∉ before) (close : '}' ∉ name) (named : name ≠ [])
      (tail : WellFormed ve names) : WellFormed (before ++ '$' :: '{' :: (name ++ '}' :: ve)) (name :: names)

/-- The texts a substitution comes across, with the depth of their nesting. -/
inductive Reached (f : Str → Option Str) (template : Str) : Nat → Str → Prop
  | template : Reached f template 1 template
  | value {depth : Nat} {text name value : Str} {names : List Str} (outer : Reached f template depth text)
      (scanned : WellFormed text names) (mentioned : name ∈ names) (resolves : f name = some value) :
      Reached f template (depth+1) value

/-- The substitution without a bound, with the height of its derivation. -/
inductive Substitutes (f : Str → Option Str) : Nat → Str → Str → Prop
  | plain {str : Str} (none : '$' ∉ str) : Substitutes f 1 str str
  | reference {height height' : Nat} {before name value out ve rest : Str} (first : '$' ∉ before) (close : '}' ∉ name)
      (named : name ≠ []) (resolves : f name = some value) (inner : Substitutes f height value out)
      (tail : Substitutes f height' ve rest) :
      Substitutes f (max (height+1) height') (before ++ '$' :: '{' :: (name ++ '}' :: ve)) (before ++ out ++ rest)

section
variable {f : Str → Option Str}

theorem expands_mono {levels levels' : Nat} {str out : Str} (expands : Expands f levels str out)
    (more : levels ≤ levels') :
    Expands f levels' str out := by
  induction expands generalizing levels' with
  | plain none =>
    obtain ⟨k,rfl⟩ := Nat.exists_eq_add_of_le more
    rw [Nat.add_right_comm]
    exact .plain none
  | reference first close named resolves _ _ inner tail =>
    obtain ⟨k,rfl⟩ := Nat.exists_eq_add_of_le more
    rw [Nat.add_right_comm]
    exact .reference first close named resolves (inner (by omega)) (tail (by omega))

/-- The levels bound the height. -/
theorem expands_iff_height {levels : Nat} {str out : Str} :
    Expands f levels str out ↔ ∃ height, height ≤ levels ∧ Substitutes f height str out := by
  constructor
  · intro expands
    induction expands with
    | @plain levels _ none => exact ⟨1,by omega,.plain none⟩
    | reference first close named resolves _ _ inner tail =>
      obtain ⟨height,low,inner⟩ := inner
      obtain ⟨height',low',tail⟩ := tail
      exact ⟨_,by omega,.reference first close named resolves inner tail⟩
  · rintro ⟨height,low,substitutes⟩
    induction substitutes generalizing levels with
    | plain none =>
      obtain ⟨k,rfl⟩ := Nat.exists_eq_add_of_le low
      rw [Nat.add_comm]
      exact .plain none
    | @reference height height' _ _ _ _ _ _ first close named resolves _ _ inner tail =>
      obtain ⟨k,rfl⟩ : ∃ k, levels = k+1 := ⟨levels-1,by omega⟩
      exact .reference first close named resolves (inner (by omega)) (tail (by omega))

/-- A template has one list of references. -/
theorem wellFormed_unique {str : Str} {names names' : List Str} (scanned : WellFormed str names)
    (scanned' : WellFormed str names') : names = names' := by
  induction scanned generalizing names' with
  | plain none =>
    cases scanned' with
    | plain _ => rfl
    | reference => simp at none
  | @reference before name ve names first close named _ ih =>
    generalize template : before ++ '$' :: '{' :: (name ++ '}' :: ve) = str at scanned'
    cases scanned' with
    | plain none => subst template; simp at none
    | @reference before' name' ve' names' first' close' _ tail' =>
      have dollar := strchr_append first' ('{' :: (name' ++ '}' :: ve'))
      rw [← template,strchr_append first] at dollar
      simp only [Option.some.injEq,Prod.mk.injEq,List.cons.injEq,true_and] at dollar
      have brace := strchr_append close' ve'
      rw [← dollar.2,strchr_append close] at brace
      obtain ⟨rfl,rfl⟩ := Prod.mk.inj (Option.some.inj brace)
      rw [ih tail']

/-- What expands is well formed, and every value it mentions expands one level below. -/
theorem expands_scanned {levels : Nat} {str out : Str} (expands : Expands f levels str out) :
    ∃ names, WellFormed str names ∧
      ∀ name ∈ names, ∃ below value inner, levels = below+1 ∧ f name = some value ∧ Expands f below value inner := by
  induction expands with
  | plain none => exact ⟨[],.plain none,by simp⟩
  | @reference levels before name value out ve rest first close named resolves inner _ _ tail =>
    obtain ⟨names,scanned,values⟩ := tail
    refine ⟨name :: names,.reference first close named scanned,fun n member => ?_⟩
    rcases List.mem_cons.mp member with rfl | later
    · exact ⟨levels,value,out,rfl,resolves,inner⟩
    · exact values n later

/-- A well-formed template expands when all its values do. -/
theorem expands_of_scanned {below : Nat} {str : Str} {names : List Str} (scanned : WellFormed str names)
    (values : ∀ name ∈ names, ∃ value out, f name = some value ∧ Expands f below value out) :
    ∃ out, Expands f (below+1) str out := by
  induction scanned with
  | @plain str none => exact ⟨str,.plain none⟩
  | @reference _ name _ _ first close named _ ih =>
    obtain ⟨value,out,resolves,inner⟩ := values name (by simp)
    obtain ⟨rest,tail⟩ := ih fun name member => values name (by simp [member])
    exact ⟨_,.reference first close named resolves inner tail⟩

/-- Whatever is reached from an expansion expands with the levels left. -/
theorem reached_expands {levels depth : Nat} {template out text : Str} (expands : Expands f levels template out)
    (reached : Reached f template depth text) : ∃ left out', depth+left = levels+1 ∧ Expands f left text out' := by
  induction reached with
  | template => exact ⟨levels,out,by omega,expands⟩
  | value _ scanned mentioned resolves ih =>
    obtain ⟨left,out',room,expanded⟩ := ih
    obtain ⟨names,scanned',values⟩ := expands_scanned expanded
    rw [wellFormed_unique scanned scanned'] at mentioned
    obtain ⟨below,value,inner,rfl,resolves',nested⟩ := values _ mentioned
    rw [resolves,Option.some.injEq] at resolves'
    subst resolves'
    exact ⟨below,inner,by omega,nested⟩

theorem reached_trans {template name value text : Str} {names : List Str} {depth : Nat}
    (scanned : WellFormed template names) (mentioned : name ∈ names) (resolves : f name = some value)
    (reached : Reached f value depth text) :
    Reached f template (depth+1) text := by
  induction reached with
  | template => exact .value .template scanned mentioned resolves
  | value _ scanned mentioned resolves ih => exact .value ih scanned mentioned resolves

/-- The conditions on a text that is reached: it is well formed, and its names resolve. -/
def Sound (f : Str → Option Str) (text : Str) : Prop := ∃ names, WellFormed text names ∧ ∀ name ∈ names, f name ≠ none

theorem expands_iff_reached {levels : Nat} {template : Str} :
    (∃ out, Expands f levels template out) ↔ ∀ depth text, Reached f template depth text →
      depth ≤ levels ∧ Sound f text := by
  constructor
  · rintro ⟨out,expands⟩ depth text reached
    obtain ⟨left,out',room,expanded⟩ := reached_expands expands reached
    obtain ⟨names,scanned,values⟩ := expands_scanned expanded
    have positive : left ≠ 0 := by
      rintro rfl
      cases expanded
    refine ⟨by omega,names,scanned,fun name member absent => ?_⟩
    obtain ⟨_,value,_,_,resolves,_⟩ := values name member
    rw [absent] at resolves
    cases resolves
  · intro all
    induction levels generalizing template with
    | zero => exact absurd (all 1 template .template).1 (by decide)
    | succ levels ih =>
      obtain ⟨_,names,scanned,resolve⟩ := all 1 template .template
      refine expands_of_scanned scanned fun name member => ?_
      obtain ⟨value,resolves⟩ := Option.ne_none_iff_exists'.mp (resolve name member)
      obtain ⟨out,expanded⟩ := ih fun depth text reached => by
        have := all _ _ (reached_trans scanned member resolves reached)
        exact ⟨by omega,this.2⟩
      exact ⟨value,out,resolves,expanded⟩

end

/-! ## Lines -/

/-- The lines of a file, the last of which may lack its newline. -/
def lines (text : Str) : List Str :=
  let parts := text.splitOn '\n'
  if parts.getLast? = some [] then parts.dropLast else parts

/-- `buffer_getline` returns the lines in turn. -/
theorem lines_getline (text : Str) :
    lines text = match getline text with
      | none => []
      | some (line,rest) => line :: lines rest := by
  by_cases empty : text = []
  · subst empty
    rfl
  cases found : strchr '\n' text with
  | none =>
    have single := strchr_none.mp found
    have all : ∀ c ∈ text, decide (c ≠ '\n') = true :=
      fun c member => decide_eq_true (by rintro rfl; exact single member)
    have parts : text.splitOn '\n' = [text] := List.splitOn_eq_singleton single
    have nothing : lines [] = [] := rfl
    simp only [getline,empty,↓reduceIte,List.takeWhile_eq_self_iff.mpr all,List.dropWhile_eq_nil_iff.mpr all,
      List.drop_nil,nothing]
    simp [lines,parts,empty]
  | some pair =>
    obtain ⟨line,rest⟩ := pair
    obtain ⟨rfl,single⟩ := strchr_some.mp found
    have parts : (line ++ '\n' :: rest).splitOn '\n' = line :: rest.splitOn '\n' :=
      List.splitOn_append_cons_self_of_not_mem single rest
    obtain ⟨first,others,shape⟩ := List.exists_cons_of_ne_nil (List.splitOn_ne_nil '\n' rest)
    rw [getline_line single]
    simp only [lines,parts,shape,List.getLast?_cons_cons,List.dropLast_cons_cons]
    split <;> rfl

/-- A file is interpolated line by line, each on its own. -/
theorem contextFile_ok_iff (f : Str → Option Str) (text : Str) (lno : Nat) (s : σ) (out : Str) :
    contextFile (reading f) false text lno s = .ok out ↔
      ∃ outs, List.Forall₂ (fun line o => contextStr (reading f) false (line.takeWhile (· ≠ nul)) s = .ok o)
        (lines text) outs ∧ out = outs.flatMap (· ++ ['\n']) := by
  unfold contextFile
  induction size : text.length using Nat.strongRecOn generalizing text lno out with
  | _ n ih =>
    rw [contextFileLoop,lines_getline]
    split
    · next after =>
      rw [after]
      constructor
      · rintro ⟨⟩
        exact ⟨[],.nil,rfl⟩
      · rintro ⟨_,⟨⟩,rfl⟩
        rfl
    · next line rest read =>
      rw [read]
      have shorter := getline_length read
      have later := ih rest.length (by omega) rest (lno+1)
      split
      · next e c failed =>
        constructor
        · rintro ⟨⟩
        · rintro ⟨_,all,_⟩
          cases all with
          | cons here _ =>
            simp only [contextStr] at here
            rw [failed] at here
            cases here
      · next o c done =>
        have ran : (contextInterpolate (reading f) false 5 (line.takeWhile (· ≠ nul)) ⟨0,s⟩).1 = .ok o := by rw [done]
        obtain ⟨same,state⟩ :=
          contextInterpolate_levels (reading f) false 4 5 (line.takeWhile (· ≠ nul)) ⟨0,s⟩ rfl (by decide)
        have back := state o ran
        rw [done,interpolate_ok_state (by rw [← same,ran])] at back
        subst back
        constructor
        · intro run
          cases after : contextFileLoop (reading f) false rest (lno+1) ⟨0,s⟩ with
          | error e => rw [after] at run; cases run
          | ok others =>
            rw [after] at run
            cases run
            obtain ⟨outs,all,rfl⟩ := (later others rfl).mp after
            exact ⟨o :: outs,.cons ran all,by simp⟩
        · rintro ⟨_,all,rfl⟩
          cases all with
          | @cons _ o' _ outs here all =>
            rw [(later _ rfl).mpr ⟨outs,all,rfl⟩]
            have equal : o' = o := by
              simp only [contextStr] at here
              rw [ran] at here
              exact (Except.ok.inj here).symm
            subst equal
            simp [Except.map]

/-! ## The semantics -/

/-- Interpolation ends within five nested calls. It succeeds exactly where every
    text reached is well formed, resolves and is at most four levels deep, with
    the unbounded substitution. No reference is left in the output, and a file is
    interpolated by lines. -/
theorem interpolate_semantics (f : Str → Option Str) (template : Str) (s : σ) :
    (∀ calls, 5 ≤ calls → (contextInterpolate (reading f) false calls template ⟨0,s⟩).1 =
      contextStr (reading f) false template s) ∧
    ((∃ out, contextStr (reading f) false template s = .ok out) ↔
      ∀ depth text, Reached f template depth text → depth ≤ 4 ∧ Sound f text) ∧
    (∀ out, contextStr (reading f) false template s = .ok out ↔ ∃ height, height ≤ 4 ∧
      Substitutes f height template out) ∧
    (∀ out, contextStr (reading f) false template s = .ok out → '$' ∉ out ∧
      ∀ {τ : Type u} (lookup : Lookup τ) (ignore : Bool) (t : τ), contextStr lookup ignore out t = .ok out) ∧
    ∀ text lno out, contextFile (reading f) false text lno s = .ok out ↔
      ∃ outs, List.Forall₂ (fun line o => contextStr (reading f) false (line.takeWhile (· ≠ nul)) s = .ok o)
        (lines text) outs ∧ out = outs.flatMap (· ++ ['\n']) := by
  have accepts : ∀ out, contextStr (reading f) false template s = .ok out ↔ Expands f 4 template out := by
    intro out
    rw [contextStr_eq]
    exact interpolate_ok_iff f 4 template s out
  refine ⟨fun calls enough => contextInterpolate_calls _ _ enough _ _,?_,?_,?_,fun text lno =>
    contextFile_ok_iff f text lno s⟩
  · simp only [accepts]
    exact expands_iff_reached
  · intro out
    rw [accepts]
    exact expands_iff_height
  · intro out run
    have plain := expands_no_dollar ((accepts out).mp run)
    refine ⟨plain,fun lookup ignore t => ?_⟩
    rw [contextStr_eq,interpolateStr,interpolate_plain lookup ignore 3 plain]

end Robsd.Substitution
