import Robsd.Interpolate

/-!
The references an interpolation comes to. Of a name that has no value, `Asks` says
by the values of the others that a template leads to it before anything fails; a
lookup may change the state as long as it answers by these values.
-/
namespace Robsd.References
open Robsd.Strings
open Robsd.Interpolate
universe u
variable {σ : Type u}

/-- `Asks f target n str`: substituting the values of `f` in `str`, at most `n`
    levels deep, comes to a reference to the target. -/
inductive Asks (f : Str → Option Str) (target : Str) : Nat → Str → Prop
  | here {levels : Nat} {before ve : Str} (first : '$' ∉ before) (close : '}' ∉ target) (named : target ≠ []) :
      Asks f target (levels+1) (before ++ '$' :: '{' :: (target ++ '}' :: ve))
  | inside {levels : Nat} {before name value ve : Str} (first : '$' ∉ before) (close : '}' ∉ name) (named : name ≠ [])
      (resolves : f name = some value) (inner : Asks f target levels value) :
      Asks f target (levels+1) (before ++ '$' :: '{' :: (name ++ '}' :: ve))
  | later {levels : Nat} {before name value out ve : Str} (first : '$' ∉ before) (close : '}' ∉ name)
    (named : name ≠ [])
      (resolves : f name = some value) (inner : Expands f levels value out) (tail : Asks f target (levels+1) ve) :
      Asks f target (levels+1) (before ++ '$' :: '{' :: (name ++ '}' :: ve))

/-- An answer that is the expected one, or another one where both are plain text. -/
inductive Answers : Option Str → Option Str → Prop
  | same (value : Option Str) : Answers value value
  | plain {text text' : Str} (none : '$' ∉ text) (none' : '$' ∉ text') : Answers (some text) (some text')

/-- A lookup that answers by the values, the target apart, and keeps an invariant. -/
structure Follows (I : σ → Prop) (lookup : Lookup σ) (f : Str → Option Str) (target : Str) : Prop where
  answers : ∀ name s, name ≠ target → I s → Answers (lookup name s).1 (f name)
  keeps : ∀ name s, name ≠ target → I s → I (lookup name s).2

/-- Text that leads somewhere has a reference. -/
theorem asks_dollar {f : Str → Option Str} {target : Str} {levels : Nat} {str : Str} (asks : Asks f target levels str) :
    '$' ∈ str := by
  cases asks <;> simp

/-- A template is plain text, starts with a reference behind plain text or fails
    before anything is looked up. -/
theorem template_cases (str : Str) : '$' ∉ str ∨
    (∃ before name ve, '$' ∉ before ∧ '}' ∉ name ∧ name ≠ [] ∧ str = before ++ '$' :: '{' :: (name ++ '}' :: ve)) ∨
    ∃ e, ∀ (lookup : Lookup σ) levels s, interpolate lookup false (levels+1) str s = (.error e,s) := by
  cases found : strchr '$' str with
  | none => exact .inl (strchr_none.mp found)
  | some parts =>
    obtain ⟨before,rest⟩ := parts
    obtain ⟨shape,first⟩ := strchr_some.mp found
    by_cases brace : ∃ vs, rest = '{' :: vs
    · obtain ⟨vs,rfl⟩ := brace
      cases closed : strchr '}' vs with
      | none =>
        refine .inr (.inr ⟨.expectedClose,?_⟩)
        intro lookup levels s
        simp only [interpolate]
        rw [interpolateInner_eq,found]
        simp only [closed]
      | some parts =>
        obtain ⟨name,ve⟩ := parts
        obtain ⟨inside,close⟩ := strchr_some.mp closed
        by_cases empty : name = []
        · refine .inr (.inr ⟨.emptyName,?_⟩)
          intro lookup levels s
          simp only [interpolate]
          rw [interpolateInner_eq,found]
          simp only [closed,empty,↓reduceIte]
        · exact .inr (.inl ⟨before,name,ve,first,close,empty,by rw [shape,inside]⟩)
    · refine .inr (.inr ⟨.expectedBrace,?_⟩)
      intro lookup levels s
      simp only [interpolate]
      rw [interpolateInner_eq,found]
      split
      · next impossible => cases impossible
      · next same => exact absurd ⟨_,(Prod.mk.inj (Option.some.inj same)).2⟩ brace
      · rfl

section
variable {I : σ → Prop} {lookup : Lookup σ} {f : Str → Option Str} {target : Str} (follows : Follows I lookup f target)

/-- Once the lookups have broken something they do not mend, a reference does not. -/
theorem reference_broken {B : σ → Prop} (stays : ∀ name s, B s → B (lookup name s).2) {levels : Nat}
    {before name ve : Str} (first : '$' ∉ before) (close : '}' ∉ name) (named : name ≠ []) {s : σ}
    (broken : B (lookup name s).2 ∨ ∃ value s', lookup name s = (some value,s') ∧
      B (interpolate lookup false levels value s').2) :
    B (interpolate lookup false (levels+1) (before ++ '$' :: '{' :: (name ++ '}' :: ve)) s).2 := by
  rw [interpolate_reference first close named]
  cases looked : lookup name s with
  | mk answer s' =>
    rw [looked] at broken
    cases answer with
    | none =>
      rcases broken with broken | ⟨_,_,impossible,_⟩
      · exact broken
      · cases impossible
    | some value =>
      have inside : B (interpolate lookup false levels value s').2 := by
        rcases broken with broken | ⟨_,_,same,broken⟩
        · exact interpolate_invariant stays levels value broken
        · cases same
          exact broken
      dsimp only
      cases run : interpolate lookup false levels value s' with
      | mk out s'' =>
        rw [run] at inside
        cases out with
        | error e => exact inside
        | ok out => exact interpolate_invariant stays (levels+1) ve inside

include follows

/-- A name with a value resolves, to that value or from plain text to plain text. -/
theorem resolves_answer (absent : f target = none) {name value : Str} (resolves : f name = some value) {s : σ}
    (holds : I s) :
    ∃ value' s', lookup name s = (some value',s') ∧ I s' ∧ (value' = value ∨ '$' ∉ value' ∧ '$' ∉ value) := by
  have other : name ≠ target := by
    rintro rfl
    rw [absent] at resolves
    cases resolves
  have answers := follows.answers name s other holds
  have keeps := follows.keeps name s other holds
  cases looked : lookup name s with
  | mk answer s' =>
    rw [looked] at answers keeps
    rw [resolves] at answers
    dsimp only at answers keeps
    cases answers with
    | same => exact ⟨value,s',rfl,keeps,.inl rfl⟩
    | @plain text _ none none' => exact ⟨text,s',rfl,keeps,.inr ⟨none,none'⟩⟩

theorem reference_runs (absent : f target = none) {levels : Nat} {name value out : Str}
    (resolves : f name = some value) (expands : Expands f levels value out)
    (runs : ∀ s, I s → ∃ out' s', interpolate lookup false levels value s = (.ok out',s') ∧ I s') {s : σ}
    (holds : I s) :
    ∃ value' s₁ out' s₂, lookup name s = (some value',s₁) ∧
      interpolate lookup false levels value' s₁ = (.ok out',s₂) ∧ I s₂ := by
  obtain ⟨value',s₁,looked,kept,alike⟩ := resolves_answer follows absent resolves holds
  rcases alike with rfl | ⟨none,_⟩
  · obtain ⟨out',s₂,run,kept⟩ := runs s₁ kept
    exact ⟨value',s₁,out',s₂,looked,run,kept⟩
  · cases levels with
    | zero => cases expands
    | succ levels => exact ⟨value',s₁,value',s₁,looked,interpolate_plain _ _ _ none s₁,kept⟩

/-- What expands is interpolated without a failure. -/
theorem expands_runs (absent : f target = none) {levels : Nat} {str out : Str} (expands : Expands f levels str out) :
    ∀ s, I s → ∃ out' s', interpolate lookup false levels str s = (.ok out',s') ∧ I s' := by
  induction expands with
  | plain none => exact fun s holds => ⟨_,s,interpolate_plain _ _ _ none s,holds⟩
  | @reference levels before name value out ve rest first close named resolves expanded _ inner tail =>
    intro s holds
    obtain ⟨value',s₁,out',s₂,looked,run,kept⟩ := reference_runs follows absent resolves expanded inner holds
    obtain ⟨rest',s₃,after,kept⟩ := tail s₂ kept
    refine ⟨before ++ out' ++ rest',s₃,?_,kept⟩
    rw [interpolate_reference first close named]
    simp only [looked,run,after,prepend,Except.map]

/-- A template that leads to the target makes the lookup be asked for it. -/
theorem asks_reaches {B : σ → Prop} (absent : f target = none) (falls : ∀ s, I s → B (lookup target s).2)
    (stays : ∀ name s, B s → B (lookup name s).2) {levels : Nat} {str : Str} (asks : Asks f target levels str) {s : σ}
    (holds : I s) : B (interpolate lookup false levels str s).2 := by
  induction asks generalizing s with
  | here first close named => exact reference_broken stays first close named (.inl (falls s holds))
  | inside first close named resolves asks inner =>
    obtain ⟨value',s',looked,kept,alike⟩ := resolves_answer follows absent resolves holds
    rcases alike with rfl | ⟨_,none⟩
    · exact reference_broken stays first close named (.inr ⟨_,s',looked,inner kept⟩)
    · exact absurd (asks_dollar asks) none
  | later first close named resolves expanded _ tail =>
    obtain ⟨value',s₁,out',s₂,looked,run,kept⟩ :=
      reference_runs follows absent resolves expanded (expands_runs follows absent expanded) holds
    rw [interpolate_reference first close named]
    simp only [looked,run]
    exact tail kept

end

/-- An interpolation that goes the same way with another lookup, keeps an invariant
    and succeeds only where the template expands. -/
structure Apart (I : σ → Prop) (lookup lookup' : Lookup σ) (f : Str → Option Str) (levels : Nat) (str : Str)
    (s : σ) : Prop where
  same : interpolate lookup' false levels str s = interpolate lookup false levels str s
  kept : I (interpolate lookup false levels str s).2
  expands : ∀ out, (interpolate lookup false levels str s).1 = .ok out → ∃ out', Expands f levels str out'

section
variable {I : σ → Prop} {lookup lookup' : Lookup σ} {f : Str → Option Str} {target : Str}

theorem Apart.plain {levels : Nat} {str : Str} (none : '$' ∉ str) {s : σ} (holds : I s) :
    Apart I lookup lookup' f (levels+1) str s := by
  refine ⟨?_,?_,fun _ _ => ⟨str,.plain none⟩⟩
  · rw [interpolate_plain _ _ _ none,interpolate_plain _ _ _ none]
  · rw [interpolate_plain _ _ _ none]
    exact holds

theorem Apart.fails {levels : Nat} {str : Str} {s s' : σ} {e : Error}
    (fails : interpolate lookup false levels str s = (.error e,s'))
    (fails' : interpolate lookup' false levels str s = (.error e,s')) (holds : I s') :
    Apart I lookup lookup' f levels str s := by
  refine ⟨fails'.trans fails.symm,by rw [fails]; exact holds,?_⟩
  intro out done
  rw [fails] at done
  cases done

/-- A reference whose name is looked up alike, its value and what is behind it. -/
theorem Apart.reference {levels : Nat} {before name value value' ve : Str} {s s₁ : σ} (first : '$' ∉ before)
    (close : '}' ∉ name) (named : name ≠ []) (resolves : f name = some value')
    (looked : lookup name s = (some value,s₁))
    (looked' : lookup' name s = (some value,s₁)) (inner : Apart I lookup lookup' f levels value s₁)
    (expands : ∀ out, Expands f levels value out → ∃ out', Expands f levels value' out')
    (tail : ∀ out s₂, Expands f levels value' out → I s₂ → Apart I lookup lookup' f (levels+1) ve s₂) :
    Apart I lookup lookup' f (levels+1) (before ++ '$' :: '{' :: (name ++ '}' :: ve)) s := by
  have run := @interpolate_reference _ lookup false levels before name ve first close named s
  have run' := @interpolate_reference _ lookup' false levels before name ve first close named s
  obtain ⟨same,kept,expanded⟩ := inner
  rw [looked] at run
  rw [looked'] at run'
  dsimp only at run run'
  rw [same] at run'
  cases inside : interpolate lookup false levels value s₁ with
  | mk out s₂ =>
    rw [inside] at run run' kept expanded
    cases out with
    | error e => exact .fails run run' kept
    | ok out =>
      obtain ⟨out,expanded⟩ := expanded out rfl
      obtain ⟨out',expanded⟩ := expands out expanded
      obtain ⟨same,kept,behind⟩ := tail out' s₂ expanded kept
      dsimp only at run run'
      refine ⟨by rw [run,run',same],by rw [run]; exact kept,?_⟩
      intro text done
      rw [run,prepend] at done
      cases after : (interpolate lookup false (levels+1) ve s₂).1 with
      | error e => rw [after] at done; cases done
      | ok rest =>
        obtain ⟨rest',expands⟩ := behind rest after
        exact ⟨_,.reference first close named resolves expanded expands⟩

/-- A template that does not lead to the target is interpolated as if there were no
    such name: any other lookup does as well that differs on the target only. -/
theorem interpolate_apart (follows : Follows I lookup f target)
    (elsewhere : ∀ name s, name ≠ target → lookup' name s = lookup name s) :
    ∀ (levels : Nat) (str : Str) (s : σ), ¬ Asks f target levels str → I s → Apart I lookup lookup' f levels str s
  | 0,str,s,_,holds => .fails rfl rfl holds
  | levels+1,str,s,apart,holds => by
    induction size : str.length using Nat.strongRecOn generalizing str s with
    | _ n ih =>
      rcases template_cases str with none | ⟨before,name,ve,first,close,named,rfl⟩ | ⟨e,fails⟩
      · exact .plain none holds
      · have other : name ≠ target := by
          rintro rfl
          exact apart (.here first close named)
        have smaller : ve.length < n := by
          rw [← size]
          simp only [List.length_append,List.length_cons]
          omega
        have answers := follows.answers name s other holds
        have keeps := follows.keeps name s other holds
        have looks := elsewhere name s other
        cases looked : lookup name s with
        | mk answer s₁ =>
          rw [looked] at answers keeps looks
          dsimp only at answers keeps
          generalize resolves : f name = expected at answers
          have tail : ∀ value out s₂, f name = some value → Expands f levels value out → I s₂ →
              Apart I lookup lookup' f (levels+1) ve s₂ := fun value out s₂ resolves expanded kept =>
            ih ve.length smaller ve s₂ (fun asks => apart (.later first close named resolves expanded asks)) kept rfl
          cases answers with
          | same =>
            cases answer with
            | none =>
              have run := @interpolate_reference _ lookup false levels before name ve first close named s
              have run' := @interpolate_reference _ lookup' false levels before name ve first close named s
              rw [looked] at run
              rw [looks] at run'
              exact .fails run run' keeps
            | some value =>
              have inner := interpolate_apart follows elsewhere levels value s₁
                (fun asks => apart (.inside first close named resolves asks)) keeps
              exact .reference first close named resolves looked looks inner (fun out expands => ⟨out,expands⟩)
                (fun out s₂ => tail value out s₂ resolves)
          | @plain text text' none none' =>
            cases levels with
            | zero =>
              have run := @interpolate_reference _ lookup false 0 before name ve first close named s
              have run' := @interpolate_reference _ lookup' false 0 before name ve first close named s
              rw [looked] at run
              rw [looks] at run'
              exact .fails run run' keeps
            | succ levels =>
              exact .reference first close named resolves looked looks (.plain none keeps)
                (fun _ _ => ⟨text',.plain none'⟩) (fun out s₂ => tail text' out s₂ resolves)
      · exact .fails (fails lookup levels s) (fails lookup' levels s) holds

end
end Robsd.References
