import Mathlib.Computability.Language
import Robsd.RegressLog

/-!
The markers of tests in a log of regress tests against the expression that the
comment of `ismarker_regress` gives for them.
-/
namespace Robsd.LogMarkers
open Robsd.Strings
open Robsd.RegressLog

/-- The lines of the expression `^==== .* ====$`. -/
def headings : Language Char := {"==== ".toList} * ⊤ * {" ====".toList}

theorem mem_headings {line : Str} : line ∈ headings ↔ ∃ text, line = "==== ".toList ++ text ++ " ====".toList := by
  simp only [headings,Language.mem_mul]
  constructor
  · rintro ⟨_,⟨_,rfl,text,_,rfl⟩,_,rfl,rfl⟩
    exact ⟨text,rfl⟩
  · rintro ⟨text,rfl⟩
    exact ⟨_,⟨_,rfl,text,Set.mem_univ text,rfl⟩,_,rfl,rfl⟩

/-- The shortest line the function takes for a marker has one blank only. -/
theorem short_heading : "==== ====".toList ∉ headings := by
  intro member
  obtain ⟨text,whole⟩ := mem_headings.mp member
  have size := congrArg List.length whole
  simp at size

/-- A blank at the end begins no further occurrence of a blank in front of a sign. -/
theorem sign_trailing {text : Str} : [' ','='] <:+: text ++ [' '] ↔ [' ','='] <:+: text := by
  constructor
  · intro inside
    rcases List.infix_concat_iff.mp inside with last | inside
    · obtain ⟨front,whole⟩ := last
      have ends := congrArg List.getLast? whole
      simp at ends
    · exact inside
  · intro inside
    exact inside.trans (List.prefix_append _ _).isInfix

/-- The function takes a line for a marker where it has the form of the expression with
    no sign behind a blank of the text, or where one blank stands for both. -/
theorem ismarkerRegress_cases {line : Str} : ismarkerRegress line = true ↔ line = "==== ====".toList ∨
    ∃ text, line = "==== ".toList ++ text ++ " ====".toList ∧ ¬ [' ','='] <:+: ' ' :: text := by
  rw [ismarkerRegress_iff]
  constructor
  · rintro ⟨name,whole,last,apart⟩
    rcases List.eq_nil_or_concat name with rfl | ⟨text,c,rfl⟩
    · exact .inl whole
    · rw [List.concat_eq_append] at last apart whole
      have blank : some c = some ' ' := (List.getLast?_concat (l := ' ' :: text)).symm.trans last
      cases blank
      refine .inr ⟨text,by simp [whole],fun inside => apart ?_⟩
      exact sign_trailing.mpr inside
  · rintro (rfl | ⟨text,rfl,apart⟩)
    · exact ⟨[],rfl,rfl,by decide⟩
    · refine ⟨text ++ [' '],by simp,List.getLast?_concat (l := ' ' :: text),fun inside => apart ?_⟩
      exact sign_trailing.mp inside

/-- The function agrees with the expression on a line unless it is the shortest one or
    a sign follows a blank within the text between the delimiters. -/
theorem ismarkerRegress_agrees_iff {line : Str} : (ismarkerRegress line = true ↔ line ∈ headings) ↔
    line ≠ "==== ====".toList ∧ ∀ text, line = "==== ".toList ++ text ++ " ====".toList →
      ¬ [' ','='] <:+: ' ' :: text := by
  constructor
  · intro agrees
    refine ⟨?_,?_⟩
    · rintro rfl
      exact short_heading (agrees.mp (ismarkerRegress_cases.mpr (.inl rfl)))
    · intro text whole
      have marker := agrees.mpr (mem_headings.mpr ⟨text,whole⟩)
      rcases ismarkerRegress_cases.mp marker with short | ⟨text',whole',apart⟩
      · exact absurd (mem_headings.mpr ⟨text,short ▸ whole⟩) short_heading
      · have same : text = text' := by simpa using whole.symm.trans whole'
        exact same ▸ apart
  · rintro ⟨long,apart⟩
    constructor
    · intro marker
      rcases ismarkerRegress_cases.mp marker with short | ⟨text,whole,_⟩
      · exact absurd short long
      · exact mem_headings.mpr ⟨text,whole⟩
    · intro member
      obtain ⟨text,whole⟩ := mem_headings.mp member
      exact ismarkerRegress_cases.mpr (.inr ⟨text,whole,apart text whole⟩)

/-- The marker of a test `a =b` is missed, and a line with a single blank is taken for one. -/
theorem headings_differ :
    "==== a =b ====".toList ∈ headings ∧ ismarkerRegress "==== a =b ====".toList = false ∧
      "==== ====".toList ∉ headings ∧ ismarkerRegress "==== ====".toList = true :=
  ⟨mem_headings.mpr ⟨"a =b".toList,rfl⟩,by decide,short_heading,by decide⟩

end Robsd.LogMarkers
