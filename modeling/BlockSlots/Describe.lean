import BlockSlots.Expand
import BlockSlots.Text.Quoted

/-! # Descriptions for diagnosis

Targets and settings as they are shown to a developer. A dialect is made of functions and is shown
by a fixed word. Names and separators are quoted, with the restriction that `Text.quoted` has.
-/

set_option autoImplicit false

namespace BlockSlots

open Text

/-- A target, for diagnosis. -/
def Target.describe : Target → String
  | named name => "Target::Named(" ++ quoted name ++ ")"
  | custom _ => "Target::Custom(..)"

/-- The dialect of the caller's, for diagnosis. -/
def Target.describeDialect? : Target → Option String
  | named _ => none
  | custom _ => some "CallbackGenerator"

/-- Settings, for diagnosis. -/
def Settings.describe (settings : Settings) : String :=
  "PreprocessOptions \x7b line_separator: " ++ quoted settings.separator ++ ", require_types: " ++
    toString settings.demandTypes ++ ", elide_unused: " ++ toString settings.hideUnused ++ " \x7d"

/-- A run with certain settings, for diagnosis. -/
def Settings.describeRun (settings : Settings) : String :=
  "Preprocessor \x7b options: " ++ settings.describe ++ ", .. \x7d"

end BlockSlots
