import TapeLang.Files
import TapeLang.Stream.Failure
import TapeLang.Tape

/-! # Settings

What can be set in a settings file, and reading such a file on top of the
defaults. How a file says what is set is up to a decoder.
-/

namespace TapeLang

/-- The settings of the command. -/
structure Settings where
  tapeSize : Int64 := Int64.ofNat Tape.defaultSize
  optimize : Bool := true
  fixpoint : Bool := true
  raw : Bool := true
  verbosity : Int64 := 0
  logFile : String := ""
  withFiles : List String := []
  deriving Repr, DecidableEq

/-- Why settings could not be had from a file. -/
inductive SettingsError where
  /-- The file cannot be read. -/
  | unreadable (failure : Failure)
  /-- The decoder makes nothing of the named file. -/
  | malformed (name : String)
  deriving Repr, DecidableEq

/-- The failure of a settings error. -/
def SettingsError.failure : SettingsError → Failure
  | .unreadable f => f
  | .malformed name => Failure.ofCause s!"failed to parse {name}"

namespace Settings

/-- Sets what the bytes of a file say on top of settings, and lists the keys that
    mean nothing; `none` if the bytes say nothing. -/
abbrev Decoder := Settings → Bytes → Option (Settings × List String)

/-- Settings from a named file, and its keys that mean nothing. A missing file
    is fine unless it is required. -/
def load (decode : Decoder) (find : Lookup) (name : String) (required : Bool) :
    Except SettingsError (Settings × List String) :=
  let unreadable (text : String) : SettingsError :=
    .unreadable ((Failure.ofCause text).within "failed to read config")
  match find name with
  | .error .missing =>
    if required then .error (unreadable (PathProblem.missing.openText name)) else .ok ({}, [])
  | .error p => .error (unreadable (p.openText name))
  | .ok .directory => .error (unreadable (PathProblem.isDirectory.readText name))
  | .ok (.file data) =>
    match decode {} data with
    | some s => .ok s
    | none => .error (.malformed name)

end Settings

end TapeLang
