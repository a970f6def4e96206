import Mathlib.Order.WellFounded

/-!
Systems that take one labelled step after another, and the induction over their
runs. A run may be asked to meet a condition at every step, which is how the
results say under what circumstances an invariant holds.
-/
namespace Robsd.Transition
universe u v w
variable {σ : Type u} {α : Type v}

/-- A system: the states it starts in and the effect of each action, none where
    the action is not possible. -/
structure System (σ : Type u) (α : Type v) where
  start : σ → Prop
  step : σ → α → Option σ

variable (S : System σ α)

/-- The state after a list of actions, if all of them are possible. -/
def System.run (s : σ) : List α → Option σ
  | [] => some s
  | a :: as => (S.step s a).bind fun s' => System.run s' as

/-- The states reached by steps that meet a condition. -/
inductive System.Reaches (C : σ → α → Prop) : σ → Prop
  | start {s : σ} (first : S.start s) : System.Reaches C s
  | step {s s' : σ} {a : α} (before : System.Reaches C s) (met : C s a) (taken : S.step s a = some s') :
    System.Reaches C s'

/-- The states reached by any steps. -/
def System.Reachable : σ → Prop := S.Reaches fun _ _ => True

variable {S}

/-- What holds at the start and is preserved by every step that meets the
    condition holds in every state so reached. -/
theorem invariant {C : σ → α → Prop} {I : σ → Prop} (first : ∀ s, S.start s → I s)
    (kept : ∀ s a s', I s → C s a → S.step s a = some s' → I s') {s : σ} (reached : S.Reaches C s) : I s := by
  induction reached with
  | start begin => exact first _ begin
  | step _ met taken ih => exact kept _ _ _ ih met taken

/-- The same where every step counts. -/
theorem invariant_always {I : σ → Prop} (first : ∀ s, S.start s → I s)
    (kept : ∀ s a s', I s → S.step s a = some s' → I s') {s : σ} (reached : S.Reachable s) : I s :=
  invariant first (fun s a s' here _ taken => kept s a s' here taken) reached

/-- A list of actions that can be taken reaches its last state. -/
theorem reachable_run {as : List α} : ∀ {s s' : σ}, S.Reachable s → S.run s as = some s' → S.Reachable s' := by
  induction as with
  | nil =>
    intro s s' before ran
    cases ran
    exact before
  | cons a as ih =>
    intro s s' before ran
    obtain ⟨next,taken,rest⟩ := Option.bind_eq_some_iff.mp ran
    exact ih (.step before trivial taken) rest

/-- What can be computed of the last state of a list of actions is the case in a state
    that is reached. -/
theorem reachable_any {s : σ} (first : S.Reachable s) {as : List α} {p : σ → Prop} [DecidablePred p]
    (found : (S.run s as).any (fun s' => decide (p s')) = true) :
    ∃ s', S.run s as = some s' ∧ S.Reachable s' ∧ p s' := by
  obtain ⟨s',ran,holds⟩ := (Option.any_eq_true _ _).mp found
  exact ⟨s',ran,reachable_run first ran,of_decide_eq_true holds⟩

theorem reachable_map {β : Type w} {s : σ} (first : S.Reachable s) {as : List α} {f : σ → β} {seen : β}
    (ran : (S.run s as).map f = some seen) : ∃ s', S.Reachable s' ∧ f s' = seen := by
  obtain ⟨s',ran,same⟩ := Option.map_eq_some_iff.mp ran
  exact ⟨s',reachable_run first ran,same⟩

/-- No run from a state goes on for ever. -/
def System.Ends (S : System σ α) (s : σ) : Prop := ¬ ∃ f : Nat → σ, f 0 = s ∧ ∀ n, ∃ a, S.step (f n) a = some (f (n+1))

/-- Where every step lowers a rank all runs end. -/
theorem ends_of_rank {ρ : Type w} [LT ρ] [WellFoundedLT ρ] (rank : σ → ρ)
    (lowers : ∀ s a s', S.step s a = some s' → rank s' < rank s) (s : σ) : S.Ends s := by
  rintro ⟨f,_,goes⟩
  obtain ⟨n,stays⟩ := WellFounded.not_rel_apply_succ (r := (· < ·)) fun n => rank (f n)
  obtain ⟨a,taken⟩ := goes n
  exact stays (lowers _ _ _ taken)

/-- The state after a list of actions, if all are possible and pass a test. -/
def System.runIf (S : System σ α) (c : σ → α → Bool) (s : σ) : List α → Option σ
  | [] => some s
  | a :: as => if c s a then (S.step s a).bind fun s' => System.runIf S c s' as else none

/-- Such a list reaches its last state by steps that meet the condition tested. -/
theorem reaches_runIf {C : σ → α → Prop} {c : σ → α → Bool} (test : ∀ s a, c s a = true → C s a) {as : List α} :
    ∀ {s s' : σ}, S.Reaches C s → S.runIf c s as = some s' → S.Reaches C s' := by
  induction as with
  | nil =>
    intro s s' before ran
    cases ran
    exact before
  | cons a as ih =>
    intro s s' before ran
    simp only [System.runIf,Option.ite_none_right_eq_some] at ran
    obtain ⟨met,ran⟩ := ran
    obtain ⟨next,taken,rest⟩ := Option.bind_eq_some_iff.mp ran
    exact ih (.step before (test s a met) taken) rest

/-- The system that starts in one state. -/
def System.startedIn (S : System σ α) (s₀ : σ) : System σ α := ⟨(· = s₀),S.step⟩

/-- A run can be continued. -/
theorem reaches_continued {C D : σ → α → Prop} {s₀ s : σ} (before : S.Reaches C s₀) (met : ∀ s a, D s a → C s a)
    (after : (S.startedIn s₀).Reaches D s) : S.Reaches C s := by
  induction after with
  | start here =>
    rw [show _ = s₀ from here]
    exact before
  | step _ also taken ih => exact .step ih (met _ _ also) taken

end Robsd.Transition
