import TapeLang.Settings.Basic
import TapeLang.Settings.Toml

/-! # Settings in TOML

The decoder of settings files that the command comes with. Keys are matched without
regard to case; keys that mean nothing are listed.
-/

namespace TapeLang

namespace Settings

/-- Lower case for matching keys; the long s counts as an s. -/
def foldCase (s : String) : String :=
  s.map fun c => if c.toNat = 0x17F then 's' else c.toLower

/-- The texts of an array of strings. -/
def strings? (items : List Toml.Value) : Option (List String) :=
  items.mapM fun v => match v with
    | .string s => some s
    | _ => none

/-- Whether a key means something. -/
def isKnown (name : String) : Bool :=
  ["tape-size", "optimize", "fixpoint", "raw", "verbosity", "log-file", "with"].contains
    (foldCase name)

/-- Set the value of a key that means something; `none` if it does not fit. -/
def assign (s : Settings) (name : String) (v : Toml.Value) : Option Settings :=
  match foldCase name, v with
  | "tape-size", .integer n => some { s with tapeSize := Int64.ofInt n }
  | "optimize", .boolean b => some { s with optimize := b }
  | "fixpoint", .boolean b => some { s with fixpoint := b }
  | "raw", .boolean b => some { s with raw := b }
  | "verbosity", .integer n => some { s with verbosity := Int64.ofInt n }
  | "log-file", .string t => some { s with logFile := t }
  | "with", .array items => (strings? items).map fun names => { s with withFiles := names }
  | _, _ => if isKnown name then none else some s

/-- The keys of a document that mean nothing. -/
def unknownKeys (d : Toml.Doc) : List String :=
  (d.keys.toList.filter fun key => match key with
    | [name] => !isKnown name
    | _ => true).map Toml.showKey

/-- Decode a document. -/
def ofToml : Decoder := fun s data => do
  let d ← Toml.parse data
  let s ← d.values.toList.foldlM (fun s entry => s.assign entry.1 entry.2) s
  return (s, unknownKeys d)

end Settings

end TapeLang
