import Robsd.Strings

/-!
The modes of robsd (mode.c): one for each of the utilities.
-/
namespace Robsd.Modes
open Robsd.Strings

/-- `enum robsd_mode`. -/
inductive Mode where
  | robsd
  | robsdCross
  | robsdPorts
  | robsdRegress
  | canvas
  deriving DecidableEq, Repr

/-- `robsd_mode_str`. -/
def robsdModeStr : Mode → Str
  | .robsd => "robsd".toList
  | .robsdCross => "robsd-cross".toList
  | .robsdPorts => "robsd-ports".toList
  | .robsdRegress => "robsd-regress".toList
  | .canvas => "canvas".toList

/-- `robsd_mode_parse`. -/
def robsdModeParse (mode : Str) : Option Mode :=
  [Mode.robsd,.robsdCross,.robsdPorts,.robsdRegress,.canvas].find? fun m => mode = robsdModeStr m

/-- The names of the modes are told apart. -/
theorem robsdModeParse_iff (mode : Str) (m : Mode) : robsdModeParse mode = some m ↔ mode = robsdModeStr m := by
  constructor
  · intro found
    exact of_decide_eq_true (List.find?_some found :)
  · rintro rfl
    cases m <;> rfl

end Robsd.Modes
