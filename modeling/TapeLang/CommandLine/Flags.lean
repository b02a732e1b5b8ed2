import TapeLang.Settings.Basic
import TapeLang.Text.IntLiteral
import TapeLang.Text.Quoted

/-! # Flags

The flags of the command. A flag starts with one or two dashes; its value
follows an equals sign or is the next argument. Switches need no value. The
first argument that is no flag, or a bare double dash, ends the flags.
-/

namespace TapeLang

/-- The flags there are. -/
inductive FlagName where
  | optimize
  | config
  | debug
  | disasm
  | dump
  | log
  | noFix
  | noRaw
  | tape
  | verbose
  | withFile
  deriving Repr, DecidableEq

/-- What the flags say. A flag that was not given is `none`. -/
structure Flags where
  config : Option String := none
  tape : Option Int64 := none
  optimize : Option Bool := none
  noFix : Option Bool := none
  withFiles : List String := []
  noRaw : Option Bool := none
  disasm : Bool := false
  dump : Int64 := 0
  verbosity : Option Nat := none
  log : Option String := none
  debug : Bool := false
  /-- The arguments after the flags. -/
  operands : List String := []
  deriving Repr, DecidableEq

/-- Why the flags say nothing. -/
inductive FlagStop where
  /-- Help was asked for. -/
  | help
  /-- A flag was wrong. -/
  | wrong (message : String)
  deriving Repr, DecidableEq

namespace FlagName

/-- All flags. -/
def all : List FlagName :=
  [.optimize, .config, .debug, .disasm, .dump, .log, .noFix, .noRaw, .tape, .verbose, .withFile]

/-- How a flag is written. -/
def name : FlagName → String
  | .optimize => "O"
  | .config => "config"
  | .debug => "debug"
  | .disasm => "disasm"
  | .dump => "dump"
  | .log => "log"
  | .noFix => "nofix"
  | .noRaw => "noraw"
  | .tape => "tape"
  | .verbose => "v"
  | .withFile => "with"

/-- The flag of a name. -/
def ofName? (name : String) : Option FlagName :=
  all.find? (·.name = name)

/-- Whether a flag is a switch. -/
def isSwitch : FlagName → Bool
  | .optimize | .debug | .disasm | .noFix | .noRaw | .verbose => true
  | .config | .dump | .log | .tape | .withFile => false

end FlagName

/-- The truth value of a text. -/
def truth? (text : String) : Option Bool :=
  if ["1", "t", "T", "TRUE", "true", "True"].contains text then some true
  else if ["0", "f", "F", "FALSE", "false", "False"].contains text then some false
  else none

/-- Count one more if a switch is on. -/
def countSwitch (count : Nat) (value : String) : Except String Nat :=
  match truth? value with
  | some true => .ok (count + 1)
  | some false => .ok count
  | none => .error s!"strconv.ParseBool: parsing {Quoted.string value}: invalid syntax"

/-- The value of an integer flag. -/
def wordFlag (value : String) : Except String Int64 :=
  match IntLiteral.parse 64 (Bytes.ofString value) with
  | .ok n => .ok (Int64.ofInt n)
  | .error .malformed => .error "parse error"
  | .error .outOfRange => .error "value out of range"

/-- The value of a switch. -/
def switchFlag (value : String) : Except String Bool :=
  match truth? value with
  | some b => .ok b
  | none => .error "parse error"

namespace Flags

/-- Set a flag to a value. -/
def set (f : Flags) (flag : FlagName) (value : String) : Except String Flags :=
  match flag with
  | .optimize => do return { f with optimize := some (← switchFlag value) }
  | .config => .ok { f with config := some value }
  | .debug => do return { f with debug := ← switchFlag value }
  | .disasm => do return { f with disasm := ← switchFlag value }
  | .dump => do return { f with dump := ← wordFlag value }
  | .log => .ok { f with log := some value }
  | .noFix => do return { f with noFix := some (← switchFlag value) }
  | .noRaw => do return { f with noRaw := some (← switchFlag value) }
  | .tape => do return { f with tape := some (← wordFlag value) }
  | .verbose => do return { f with verbosity := some (← countSwitch (f.verbosity.getD 0) value) }
  | .withFile => .ok { f with withFiles := f.withFiles ++ [value] }

/-- Set a flag, or say what is wrong with its value. -/
def accept (f : Flags) (flag : FlagName) (value : String) : Except FlagStop Flags :=
  match f.set flag value with
  | .ok f => .ok f
  | .error why =>
    let quoted := Quoted.string value
    if flag.isSwitch then
      .error (.wrong s!"invalid boolean value {quoted} for -{flag.name}: {why}")
    else .error (.wrong s!"invalid value {quoted} for flag -{flag.name}: {why}")

end Flags

/-- What an argument is. -/
inductive Argument where
  /-- No flag; the flags end before it. -/
  | operand
  /-- The flags end after it. -/
  | terminator
  /-- It looks like a flag and is none. -/
  | malformed
  /-- A flag, with the value after its equals sign. -/
  | flag (name : String) (value : Option String)
  deriving Repr, DecidableEq

namespace Argument

/-- A flag from what follows its dashes. -/
def ofName (text : List Char) : Argument :=
  match text with
  | [] => .malformed
  | first :: rest =>
    if first = '-' || first = '=' then .malformed
    else
      let name := String.ofList (first :: rest.takeWhile (· != '='))
      match rest.dropWhile (· != '=') with
      | [] => .flag name none
      | _ :: value => .flag name (some (String.ofList value))

/-- What an argument is. -/
def ofString (arg : String) : Argument :=
  match arg.toList with
  | ['-', '-'] => .terminator
  | '-' :: '-' :: rest => ofName rest
  | '-' :: first :: rest => ofName (first :: rest)
  | _ => .operand

end Argument

namespace Flags

/-- Read arguments on top of the flags so far. -/
def parse (f : Flags) : List String → Except FlagStop Flags
  | [] => .ok f
  | arg :: args =>
    match Argument.ofString arg with
    | .operand => .ok { f with operands := arg :: args }
    | .terminator => .ok { f with operands := args }
    | .malformed => .error (.wrong s!"bad flag syntax: {arg}")
    | .flag name value =>
      match FlagName.ofName? name with
      | none =>
        if name = "help" || name = "h" then .error .help
        else .error (.wrong s!"flag provided but not defined: -{name}")
      | some flag =>
        if flag.isSwitch then
          match f.accept flag (value.getD "true") with
          | .error e => .error e
          | .ok f => parse f args
        else match value, args with
          | some value, args =>
            match f.accept flag value with
            | .error e => .error e
            | .ok f => parse f args
          | none, value :: args =>
            match f.accept flag value with
            | .error e => .error e
            | .ok f => parse f args
          | none, [] => .error (.wrong s!"flag needs an argument: -{name}")

/-- The settings file to be read. -/
def configFile (f : Flags) : String :=
  f.config.getD "bfvm.toml"

/-- Settings with what the flags say on top. -/
def override (f : Flags) (s : Settings) : Settings :=
  { tapeSize := f.tape.getD s.tapeSize
    optimize := f.optimize.getD s.optimize
    fixpoint := (f.noFix.map (!·)).getD s.fixpoint
    raw := (f.noRaw.map (!·)).getD s.raw
    verbosity := (f.verbosity.map Int64.ofNat).getD s.verbosity
    logFile := f.log.getD s.logFile
    withFiles := s.withFiles ++ f.withFiles }

/-- How to use the command. -/
def usage : String :=
  "Usage: bfvm [flags] program.bf\n" ++
  "  -O\tenable the peephole optimizer (default true)\n" ++
  "  -config file\n    \tload settings from TOML file (default \"bfvm.toml\")\n" ++
  "  -debug\n    \tenable debug diagnostics\n" ++
  "  -disasm\n    \tprint the compiled program and exit\n" ++
  "  -dump n\n    \tdump the pointer, pc and first n cells of the tape upon exit\n" ++
  "  -log file\n    \tlog to file instead of stderr\n" ++
  "  -nofix\n    \trun the optimizer passes only once\n" ++
  "  -noraw\n    \tdisable raw terminal IO\n" ++
  "  -tape int\n    \ttape size in cells (default 30000)\n" ++
  "  -v\tincrease verbosity (can be specified multiple times)\n" ++
  "  -with filename\n    \tAdd filename to the input list (can be specified multiple times)\n"

end Flags

end TapeLang
