import TapeLang.Assembly.Listing
import TapeLang.CommandLine.Flags
import TapeLang.Compile
import TapeLang.Machine.Dump
import TapeLang.Machine.Setup

/-! # A session of the command

A session reads flags and settings, compiles the program and lists or runs it.
It is a function of the arguments, the files around it and the standard input,
and of what it is built with: a decoder of settings files and a log. The files
listed as input are read in order, before the standard input.
-/

namespace TapeLang

/-- What a session leaves behind. -/
structure Exit where
  code : Nat
  stdout : Bytes := []
  stderr : Bytes := []
  /-- Names of the files created. -/
  created : List String := []
  deriving Repr, DecidableEq

/-- What a session is given. -/
structure Surroundings where
  args : List String
  /-- The files and directories. -/
  find : Lookup
  decode : Settings.Decoder
  /-- Opens the log for a verbosity, in the named file if there is one: the names of
      the files that this creates, or how the session ends if it cannot be opened. -/
  openLog : Int64 → Option String → Except Exit (List String)
  stdin : Bytes

/-- Why a session ended without success, once its flags were read. -/
inductive SessionError where
  /-- A file or the settings could not be read, or arguments are missing. -/
  | failure (f : Failure)
  /-- The program could not be compiled. -/
  | source (e : SourceError)
  /-- The tape could not be made. -/
  | size (p : SizeProblem)
  /-- The run ended with an error. -/
  | run (e : RunError)
  deriving Repr, DecidableEq

namespace SessionError

/-- The text of an error. -/
def message : SessionError → Bytes
  | .failure f => Bytes.ofString f.message
  | .source e => e.message
  | .size p => Bytes.ofString p.message
  | .run e => Bytes.ofString e.message

/-- The text of an error with debug diagnostics: causes come first, on lines of
    their own. -/
def trail : SessionError → Bytes
  | .failure f => Bytes.ofString f.trail
  | .source (.unreadable f) => Bytes.ofString f.trail
  | .source (.unfit f) => Bytes.ofString f.trail
  | e => e.message

end SessionError

namespace Machine

/-- Where a machine stands, for debug diagnostics. -/
def standing (m : Machine) : String :=
  let place := match m.program[m.pc.toInt.toNat]? with
    | some i => s!"{m.pc.toInt} ({i.text})"
    | none => s!"{m.pc.toInt}"
  s!"PC: {place}, Ptr: {m.tape.ptr.toInt}, Cell: {m.tape.cell.toNat}\n"

/-- The bytes that reached the output. -/
def printed (m : Machine) : Bytes :=
  match m.state.channels.output with
  | some w => w.received.toList
  | none => []

end Machine

namespace Session

/-- End with an error; the machine is given if there was one. -/
def fail (flags : Flags) (e : SessionError) (m : Option Machine) : Exit :=
  let text := if flags.debug then e.trail else e.message
  let standing := match m with
    | some m => if flags.debug then m.standing else ""
    | none => ""
  { code := 1
    stdout := (m.map Machine.printed).getD []
    stderr := [10] ++ text ++ [10] ++ Bytes.ofString standing }

/-- Open a file for reading. A directory can be opened, but not read. -/
def openFile (find : Lookup) (name : String) : Except SessionError (List Chunk) :=
  match find name with
  | .error p => .error (.failure (Failure.ofCause (p.openText name)))
  | .ok .directory => .ok [⟨[], .failed (PathProblem.isDirectory.readText name)⟩]
  | .ok (.file data) => .ok [⟨data, .more⟩]

/-- Open files in order, up to the first that fails. -/
def openFiles (find : Lookup) : List String → Except SessionError (List (List Chunk))
  | [] => .ok []
  | name :: rest =>
    match openFile find name with
    | .error e => .error e
    | .ok chunks =>
      match openFiles find rest with
      | .error e => .error e
      | .ok more => .ok (chunks :: more)

/-- The standard output: it takes everything and can be flushed. -/
def stdout : Writer :=
  { onFlush := some fun _ => none }

/-- The settings of the machine. The standard input is pushed first, then the
    files from the last to the first, so that the first is on top. -/
def machineSettings (s : Settings) (stdin : Bytes) (files : List (List Chunk)) : List Setting :=
  [.tapeSize s.tapeSize, .output (some stdout), .input (Reader.ofBytes 0 stdin)] ++
    files.zipIdx.map fun (chunks, k) => .input { id := k + 1, chunks }

/-- Run a machine to its end, and dump it if asked for. -/
def runMachine (limit : Nat) (flags : Flags) (m : Machine) : Option Exit :=
  (m.run limit).map fun (m, outcome) =>
    match outcome with
    | .error e => fail flags (.run e) (some m)
    | .ok () =>
      if 0 < flags.dump then
        let p := m.dump flags.dump (m.state.channels.output.getD stdout)
        { code := 0, stdout := p.writer.received.toList }
      else { code := 0, stdout := m.printed }

/-- Run a compiled program. A tape beyond what can be allocated ends the session
    silently. -/
def runProgram (limit : Nat) (given : Surroundings) (flags : Flags) (s : Settings)
    (program : Program) : Option Exit :=
  match openFiles given.find s.withFiles.reverse with
  | .error e => some (fail flags e none)
  | .ok files =>
    match Machine.new program (machineSettings s given.stdin files) with
    | .error .tooLarge => some { code := 0 }
    | .error p => some (fail flags (.size p) none)
    | .ok m => runMachine limit flags m

/-- Compile a program, and list or run it. -/
def process (limit : Nat) (given : Surroundings) (flags : Flags) (s : Settings)
    (name : String) : Option Exit :=
  match openFile given.find name with
  | .error e => some (fail flags e none)
  | .ok chunks =>
    match compile { peephole := s.optimize, fixpoint := s.fixpoint } name chunks with
    | .error e => some (fail flags (.source e) none)
    | .ok lowered =>
      if flags.disasm then
        some { code := 0, stdout := (Assembly.list 0 lowered.code stdout).writer.received.toList }
      else runProgram limit given flags s lowered.code

/-- Go on once flags and settings are known. -/
def proceed (limit : Nat) (given : Surroundings) (flags : Flags) (s : Settings) : Option Exit :=
  match given.openLog s.verbosity (if s.logFile.isEmpty then none else some s.logFile) with
  | .error e => some e
  | .ok created =>
    let done := match flags.operands with
      | [name] => process limit given flags s name
      | _ =>
        let e := fail flags (.failure (Failure.ofCause "expected exactly one program file")) none
        some { e with stderr := Bytes.ofString Flags.usage ++ e.stderr }
    done.map fun e => { e with created }

/-- A whole session; `none` if the program has not ended after `limit` steps. -/
def run (limit : Nat) (given : Surroundings) : Option Exit :=
  match Flags.parse {} given.args with
  | .error .help => some { code := 0, stderr := Bytes.ofString Flags.usage }
  | .error (.wrong message) =>
    some { code := 2, stderr := Bytes.ofString (message ++ "\n" ++ Flags.usage) }
  | .ok flags =>
    match Settings.load given.decode given.find flags.configFile flags.config.isSome with
    | .error e => some (fail flags (.failure e.failure) none)
    | .ok (s, _) => proceed limit given flags (flags.override s)

end Session

end TapeLang
