import TapeLang.CommandLine.Session
import TapeLang.Settings.Decode

/-! # The command

The outer layer of the command: it looks up the files that a session needs, opens
its log, runs the session and passes on what it leaves behind.
-/

namespace TapeLang

/-- What a path of the file system leads to. -/
def lookUp (path : String) : IO (Except PathProblem Entry) := do
  try
    let data ← IO.FS.readBinFile path
    return .ok (.file data.data.toList)
  catch e =>
    match e with
    | .noFileOrDirectory .. => return .error .missing
    | .permissionDenied .. => return .error (.other "permission denied")
    | _ => return .ok .directory

/-- What some paths lead to. -/
def lookUpAll (paths : List String) : IO Lookup := do
  let entries ← paths.mapM fun path => return (path, ← lookUp path)
  return fun path => (entries.lookup path).getD (.error .missing)

/-- Open the log file of a session, if one is to be written. Nothing is logged at a
    verbosity of -4 or below. -/
def openLogFile (verbosity : Int64) (path : String) : IO (Except Exit (List String)) := do
  if path.isEmpty || verbosity ≤ -4 then return .ok []
  try
    let _ ← IO.FS.Handle.mk path .append
    return .ok []
  catch e =>
    let problem := match e with
      | .noFileOrDirectory .. => .missing
      | .permissionDenied .. => .other "permission denied"
      | _ => .isDirectory
    let text := s!"log file error: {PathProblem.openText path problem}\n"
    return .error { code := 1, stderr := Bytes.ofString text }

/-- Read a stream to its end. -/
partial def readToEnd (stream : IO.FS.Stream) (before : ByteArray) : IO ByteArray := do
  let chunk ← stream.read 65536
  if chunk.isEmpty then return before else readToEnd stream (before ++ chunk)

/-- Write bytes to a stream. -/
def writeBytes (stream : IO.FS.Stream) (data : Bytes) : IO Unit := do
  stream.write (ByteArray.mk data.toArray)
  stream.flush

/-- Whether a session with these flags may read its standard input. -/
def readsStdin (flags : Flags) : Bool :=
  flags.operands.length = 1 && !flags.disasm

/-- What a session with the given arguments is given. -/
def surroundings (args : List String) : IO Surroundings := do
  let decode := Settings.ofToml
  let unopened : Except Exit (List String) := .ok []
  match Flags.parse {} args with
  | .error _ =>
    return { args, find := ← lookUpAll [], decode, openLog := fun _ _ => unopened, stdin := [] }
  | .ok flags =>
    let find ← lookUpAll [flags.configFile]
    match Settings.load decode find flags.configFile flags.config.isSome with
    | .error _ => return { args, find, decode, openLog := fun _ _ => unopened, stdin := [] }
    | .ok (s, _) =>
      let s := flags.override s
      let opened ← openLogFile s.verbosity s.logFile
      let find ← lookUpAll (flags.configFile :: s.withFiles ++ flags.operands)
      let stdin ← if readsStdin flags then readToEnd (← IO.getStdin) ByteArray.empty
        else pure ByteArray.empty
      return { args, find, decode, openLog := fun _ _ => opened, stdin := stdin.data.toList }

end TapeLang

/-- Run the command. -/
def main (args : List String) : IO UInt32 := do
  match TapeLang.Session.run TapeLang.Machine.patience (← TapeLang.surroundings args) with
  | none => return 1
  | some exit =>
    TapeLang.writeBytes (← IO.getStdout) exit.stdout
    TapeLang.writeBytes (← IO.getStderr) exit.stderr
    return exit.code.toUInt32
