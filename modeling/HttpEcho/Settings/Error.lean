import HttpEcho.Fault

/-!
# Errors in the settings

Why no settings could be put together: the file cannot be read, it is malformed, or the settings
themselves are refused.
-/

namespace HttpEcho

/-- Why no settings could be put together. -/
inductive SettingsError where
  | unreadable (path : String) (fault : Fault)
  | malformed (path : String)
  | invalid (reason : String)
  deriving DecidableEq, Repr

/-- The text that is shown for an error. -/
def SettingsError.message : SettingsError → String
  | unreadable path fault => s!"Failed to read config file '{path}': {fault.message}"
  | malformed path => s!"Failed to parse config file '{path}': "
  | invalid reason => s!"Invalid configuration: {reason}"

end HttpEcho
