import TapeLang.CommandLine.Session
import TapeLang.Proofs.Arguments
import TapeLang.Proofs.InputOrder
import TapeLang.Proofs.Printing
import TapeLang.Proofs.Steps

/-! # Input files of a session

A session has input files from its settings file and from its command line. A program
that it runs reads them in this order, each from its start to its end, and then the
standard input. What the program prints is what the session prints.

What a settings file lists is up to its format. All that is asked of the decoder is
that it returns the listed names in order.
-/

namespace TapeLang

/-! ## Listed in settings -/

namespace Settings

variable {lists : Bytes → List String → Prop} {decode : Decoder} {find : Lookup} {name : String}
  {files : List String}

/-- What a decoder returns for a file that lists input files has their names in order. -/
def ReturnsListed (lists : Bytes → List String → Prop) (decode : Decoder) : Prop :=
  ∀ data names, lists data names →
    ∀ s unknown, decode {} data = some (s, unknown) → s.withFiles = names

/-- A settings file of this name lists these input files; without the file there are none. -/
inductive Lists (lists : Bytes → List String → Prop) (find : Lookup) (name : String) :
    List String → Prop where
  | missing (absent : find name = .error .missing) : Lists lists find name []
  | read {data : Bytes} {files : List String} (found : find name = .ok (.file data))
      (listed : lists data files) : Lists lists find name files

theorem Lists.eq_withFiles {required : Bool} {s : Settings} {unknown : List String}
    (listed : Lists lists find name files) (returns : ReturnsListed lists decode)
    (loaded : load decode find name required = .ok (s, unknown)) : files = s.withFiles := by
  cases listed with
  | missing absent =>
      simp only [load, absent] at loaded
      split at loaded
      · cases loaded
      · cases loaded
        rfl
  | @read data _ found listed =>
      simp only [load, found] at loaded
      split at loaded
      · next decoded =>
          cases loaded
          exact (returns data files listed s unknown decoded).symm
      · cases loaded

end Settings

/-! ## Reading -/

namespace Channels

variable {c c' : Channels}

/-- There is an output, and no call on it fails. -/
def Flawless (c : Channels) : Prop :=
  ∃ w, c.output = some w ∧ (∀ n, w.onWrite n = .accept) ∧
    ∀ answer, w.onFlush = some answer → ∀ n, answer n = none

theorem Flawless.flush (flawless : c.Flawless) : c.flush.2 = none ∧ c.flush.1.Flawless := by
  obtain ⟨input, output, log⟩ := c
  obtain ⟨w, rfl, accepts, well⟩ := flawless
  cases flushable : w.onFlush with
  | none =>
      rw [flush_of_none flushable]
      exact ⟨rfl, w, rfl, accepts, well⟩
  | some answer =>
      rw [flush_of_some flushable, well answer flushable]
      exact ⟨rfl, _, rfl, accepts, well⟩

/-- A step leaves the output as good as it was. -/
theorem Turn.flawless {reads : Prop} (turn : c.Turn reads c') (flawless : c.Flawless) :
    c'.Flawless := by
  cases turn with
  | idle => exact flawless
  | wrote _ b =>
      obtain ⟨input, output, log⟩ := c
      obtain ⟨w, rfl, calls⟩ := flawless
      exact ⟨_, rfl, calls⟩
  | flushed => exact flawless.flush.2
  | read => exact flawless.flush.2

end Channels

namespace Machine

variable {start m : Machine} {bytes : Bytes} {j : Nat}

theorem flawless_follow (flawless : m.state.channels.Flawless) (k : Nat) :
    (follow step k m).1.state.channels.Flawless :=
  (follow_keeps (I := fun m : Machine => m.state.channels.Flawless)
    (fun m => m.steps_step.turn.flawless) k flawless).1

/-- A run from `start` comes to `m` after `j` reads. -/
inductive Reaches (start : Machine) : Nat → Machine → Prop where
  | start : Reaches start 0 start
  | read {j : Nat} {m m' : Machine} (reaches : Reaches start j m) (reads : m.Reads)
      (done : m.step = (m', none)) : Reaches start (j + 1) m'
  | other {j : Nat} {m m' : Machine} (reaches : Reaches start j m) (unread : ¬ m.Reads)
      (done : m.step = (m', none)) : Reaches start j m'

theorem Reaches.comes (reaches : Reaches start j m) : Comes start j m := by
  induction reaches with
  | start => exact .start
  | read _ reads done ih => exact .read ih reads done
  | other _ unread done ih =>
      have same := Comes.other ih fun reads => absurd reads unread
      rwa [done] at same

/-- What is reached lies on the way of steps. -/
theorem Reaches.exists_follow (reaches : Reaches start j m) :
    ∃ k, follow step k start = (m, none) := by
  induction reaches with
  | start => exact ⟨0, rfl⟩
  | read _ _ done ih | other _ _ done ih =>
      obtain ⟨k, before⟩ := ih
      exact ⟨k + 1, by rw [follow_add before, follow_succ done, follow]⟩

theorem exists_reaches {k : Nat} (reached : follow step k start = (m, none)) :
    ∃ j, Reaches start j m := by
  refine reached_keeps (I := fun m => ∃ j, Reaches start j m) ?_ ⟨0, .start⟩ reached
  rintro _ m m' _ done ⟨j, reaches⟩
  by_cases reads : m.Reads
  · exact ⟨j + 1, reaches.read reads done⟩
  · exact ⟨j, reaches.other reads done⟩

/-- The run of `start` on these bytes. -/
structure RunsOn (start : Machine) (bytes : Bytes) : Prop where
  /-- It ends where a step that it comes to ends it. -/
  ends : ∀ m outcome, (∃ limit, start.run limit = some (m, outcome)) ↔
    ∃ j before, Reaches start j before ∧ before.step = (m, some outcome)
  /-- Its reads take the bytes one by one, and leave the tape as it is once there are no more. -/
  reads : ∀ j m, Reaches start j m → m.Reads → ∃ c,
    m.step = (⟨m.program, m.pc.next, m.count + 1,
      ⟨bytes[j]?.elim m.tape fun b => m.tape.setCell b, c⟩⟩, none)

theorem run_ends_iff (fresh : start.count = 0) (outcome : Outcome) :
    (∃ limit, start.run limit = some (m, outcome)) ↔
      ∃ j before, Reaches start j before ∧ before.step = (m, some outcome) := by
  obtain ⟨program, pc, _, state⟩ := start
  subst fresh
  simp only [run, resume_eq_some_iff]
  constructor
  · rintro ⟨limit, ended⟩
    obtain ⟨k, before, reached, last⟩ := follow_last ended
    obtain ⟨j, reaches⟩ := exists_reaches reached
    exact ⟨j, before, reaches, last⟩
  · rintro ⟨j, before, reaches, last⟩
    obtain ⟨k, reached⟩ := reaches.exists_follow
    exact ⟨k + 1, by rw [follow_add reached, follow_ended last]⟩

theorem runsOn (on : start.tape.OnTape) (fresh : start.count = 0)
    (supplies : start.state.channels.input.Supplies bytes)
    (flawless : start.state.channels.Flawless) : start.RunsOn bytes := by
  refine ⟨fun m outcome => run_ends_iff fresh outcome, fun j m reaches reads => ?_⟩
  obtain ⟨here, left⟩ := reaches.comes.supplies on supplies
  obtain ⟨k, reached⟩ := reaches.exists_follow
  have kept := flawless_follow flawless k
  rw [reached] at kept
  obtain ⟨c, _, moved⟩ := (step_read here reads left).2 _ (Prod.ext rfl kept.flush.1)
  rw [List.head?_drop] at moved
  exact ⟨c, moved⟩

/-- A run that ended leaves an output that takes a dump as a whole. -/
theorem received_dump {limit : Nat} {outcome : Outcome} (flawless : start.state.channels.Flawless)
    (ended : start.run limit = some (m, outcome)) (count : Int64) (w : Writer) :
    (m.dump count (m.state.channels.output.getD w)).writer.received.toList =
      m.printed ++ (m.dumpPieces count).flatten := by
  have kept := flawless_follow (m := { start with count := 0 }) flawless limit
  rw [resume_eq_some_iff.mp ended] at kept
  obtain ⟨w, (output : m.state.channels.output = some w), accepts, _⟩ := kept
  simp only [printed, output, Option.getD_some]
  exact ((Printer.printed_pieces (m.dumpPieces count) w).accepted accepts).2

theorem configure_inputs (rs : List Reader) (m : Machine) :
    configure (rs.map .input) m = (m.pushInputs rs, none) := by
  induction rs generalizing m with
  | nil => rfl
  | cons r rs ih => exact ih (m.pushInput r)

end Machine

/-! ## Sessions -/

namespace Session

variable {find : Lookup} {names : List String} {contents : List Bytes}

/-- These files hold these bytes. -/
def Holds (find : Lookup) : List String → List Bytes → Prop :=
  List.Forall₂ fun name data => find name = .ok (.file data)

theorem openFiles_of_holds (holds : Holds find names contents) :
    openFiles find names = .ok (contents.map fun data => [⟨data, .more⟩]) := by
  induction holds with
  | nil => rfl
  | cons found _ ih => simp only [openFiles, openFile, found, ih, List.map_cons]

/-- The readers of opened files. -/
def readers (files : List (List Chunk)) : List Reader :=
  files.zipIdx.map fun x => { id := x.2 + 1, chunks := x.1 }

theorem delivers_chunk (data : Bytes) : Delivers [⟨data, .more⟩] data := by
  have whole : Delivers [⟨data, .more⟩] (data ++ []) := .more .nil
  rwa [List.append_nil] at whole

theorem delivers_ofBytes (id : Nat) (data : Bytes) :
    Delivers (Reader.ofBytes id data).chunks data := by
  cases data with
  | nil => exact .nil
  | cons b data => exact delivers_chunk (b :: data)

theorem readers_deliver (contents : List Bytes) :
    List.Forall₂ (fun r data => Delivers r.chunks data)
      (readers (contents.map fun data => [⟨data, .more⟩])) contents := by
  rw [readers, List.forall₂_map_left_iff, List.zipIdx_map]
  have counted : ∀ k, List.Forall₂ (fun (x : Bytes × Nat) data => x.1 = data)
      (contents.zipIdx k) contents := by
    induction contents with
    | nil => exact fun _ => .nil
    | cons data contents ih => exact fun k => .cons rfl (ih (k + 1))
  refine List.forall₂_map_left_iff.mpr ((counted 0).imp ?_)
  rintro ⟨_, _⟩ data rfl
  exact delivers_chunk _

/-- A machine whose input are opened files on top of the standard input. -/
def machine (program : Program) (tape : Tape) (stdin : Bytes) (files : List (List Chunk)) :
    Machine where
  program
  state.tape := { tape with ptr := 0 }
  state.channels :=
    { input := Input.absent.pushAll (Reader.ofBytes 0 stdin :: readers files)
      output := some stdout }

theorem new_machineSettings {s : Settings} {tape : Tape}
    (sized : Tape.ofSize s.tapeSize = .ok tape) (program : Program) (stdin : Bytes)
    (files : List (List Chunk)) : Machine.new program (machineSettings s stdin files) =
      .ok (machine program tape stdin files) := by
  have settings : machineSettings s stdin files = .tapeSize s.tapeSize :: .output (some stdout) ::
      (Reader.ofBytes 0 stdin :: readers files).map .input := by
    simp [machineSettings, readers]
  rw [Machine.new, settings]
  simp only [Machine.configure, Machine.set, sized]
  rw [Machine.configure_inputs, Machine.pushInputs_eq]
  rfl

/-- The file that was opened last is read first. -/
theorem machine_supplies (program : Program) (tape : Tape) (stdin : Bytes) (contents : List Bytes) :
    (machine program tape stdin
      (contents.map fun data => [⟨data, .more⟩])).state.channels.input.Supplies
        (contents.reverse.flatten ++ stdin) := by
  have delivers : List.Forall₂ (fun (r : Reader) data => Delivers r.chunks data)
      (Reader.ofBytes 0 stdin :: readers (contents.map fun data => [⟨data, .more⟩]))
      (stdin :: contents) :=
    .cons (delivers_ofBytes 0 stdin) (readers_deliver contents)
  have supplies := Input.supplies_of_pushes (List.cons_ne_nil _ _) delivers
  simpa [machine] using supplies

/-- A session that comes to run a program. -/
structure Launch (given : Surroundings) where
  flags : Flags
  /-- What the settings file says. -/
  configured : Settings
  unknown : List String
  created : List String
  name : String
  chunks : List Chunk
  lowered : Lowered
  parsed : Flags.parse {} given.args = .ok flags
  loaded : Settings.load given.decode given.find flags.configFile flags.config.isSome =
    .ok (configured, unknown)
  logged : given.openLog (flags.override configured).verbosity
    (if (flags.override configured).logFile.isEmpty then none
      else some (flags.override configured).logFile) = .ok created
  operand : flags.operands = [name]
  opened : openFile given.find name = .ok chunks
  compiled : compile ⟨(flags.override configured).optimize, (flags.override configured).fixpoint⟩
    name chunks = .ok lowered
  unlisted : flags.disasm = false
  sized : ∃ tape, Tape.ofSize (flags.override configured).tapeSize = .ok tape

namespace Launch

variable {given : Surroundings}

/-- What a run that has ended leaves behind: all that was printed, then a dump if asked for, or
    the error. -/
def exit (l : Launch given) : Machine × Outcome → Exit
  | (m, .ok ()) =>
    { code := 0
      stdout := m.printed ++
        if 0 < l.flags.dump then (m.dumpPieces l.flags.dump).flatten else []
      created := l.created }
  | (m, .error e) =>
    { code := 1
      stdout := m.printed
      stderr := [10] ++ Bytes.ofString e.message ++ [10] ++
        Bytes.ofString (if l.flags.debug then m.standing else "")
      created := l.created }

theorem runMachine_eq (l : Launch given) {start : Machine}
    (flawless : start.state.channels.Flawless) (limit : Nat) :
    (runMachine limit l.flags start).map (fun e => { e with created := l.created }) =
      (start.run limit).map l.exit := by
  rw [runMachine, Option.map_map]
  refine Option.map_congr fun ⟨m, outcome⟩ ended => ?_
  cases outcome with
  | error e => simp [fail, exit, SessionError.trail, SessionError.message]
  | ok done =>
      have received := Machine.received_dump flawless ended l.flags.dump stdout
      by_cases dumped : 0 < l.flags.dump
      · simp [exit, dumped, received]
      · simp [exit, dumped]

/-- The session is the run of this machine. -/
structure Starts (l : Launch given) (start : Machine) : Prop where
  program : start.program = l.lowered.code
  fresh : start.pc = 0 ∧ start.count = 0
  session : ∀ limit, run limit given = (start.run limit).map l.exit

/-- With input files that can be read, a session runs its program on their bytes. -/
theorem exists_starts (l : Launch given) {contents : List Bytes}
    (holds : Holds given.find (l.flags.override l.configured).withFiles contents) :
    ∃ start, l.Starts start ∧ start.RunsOn (contents.flatten ++ given.stdin) := by
  -- files are opened from the last to the first
  have opened := openFiles_of_holds (List.rel_reverse holds)
  obtain ⟨tape, sized⟩ := l.sized
  have made := new_machineSettings sized l.lowered.code given.stdin
    (contents.reverse.map fun data => [⟨data, .more⟩])
  have supplies := machine_supplies l.lowered.code tape given.stdin contents.reverse
  rw [List.reverse_reverse] at supplies
  have flawless : (machine l.lowered.code tape given.stdin
      (contents.reverse.map fun data => [⟨data, .more⟩])).state.channels.Flawless := by
    refine ⟨stdout, rfl, fun _ => rfl, ?_⟩
    rintro _ ⟨⟩ _
    rfl
  refine ⟨_, ⟨rfl, ⟨rfl, rfl⟩, fun limit => ?_⟩,
    Machine.runsOn (Machine.new_onTape made) rfl supplies flawless⟩
  rw [← l.runMachine_eq flawless]
  simp only [run, l.parsed, l.loaded, proceed, l.logged, l.operand, process, l.opened, l.compiled,
    l.unlisted, Bool.false_eq_true, if_false, runProgram, opened, made]

end Launch

/-- A session that runs a program has input files from its settings file and from its command
    line. If they can all be read and the decoder returns those that are listed, the session is
    the run of the program on the bytes of those in the settings file, then of those on the command
    line, each list in its order, and then on the standard input. -/
theorem input_files_precede_stdin {given : Surroundings} (l : Launch given)
    {lists : Bytes → List String → Prop} (returns : Settings.ReturnsListed lists given.decode) :
    (∃ added, Flags.Adds given.args added) ∧
    ∀ listed added contents, Settings.Lists lists given.find l.flags.configFile listed →
      Flags.Adds given.args added → Holds given.find (listed ++ added) contents →
      ∃ start, l.Starts start ∧ start.RunsOn (contents.flatten ++ given.stdin) := by
  refine ⟨Flags.exists_adds l.parsed, ?_⟩
  intro listed added contents lists adds holds
  rw [lists.eq_withFiles returns l.loaded, adds.eq_withFiles l.parsed] at holds
  exact l.exists_starts holds

/-- A format of settings files: every byte is the name of an input file. -/
def letters (data : Bytes) : List String :=
  data.map fun b => String.singleton (Char.ofNat b.toNat)

/-- Two files from each place and a program that prints what it reads, four times. One of the files
    is empty and is named in both places. -/
def twoOfEach : Surroundings where
  args := ["-config", "s", "-with", "c", "-tape=4", "--with=b", "p"]
  find name :=
    match [("s", Bytes.ofString "ab"), ("a", [65]), ("b", []), ("c", [66]),
      ("p", Bytes.ofString ",.,.,.,.")].lookup name with
    | some data => .ok (.file data)
    | none => .error .missing
  decode s data := some ({ s with withFiles := letters data }, [])
  openLog _ _ := .ok []
  stdin := [67]

/-- It comes to run the program on four cells. -/
def twoOfEachLaunch : Launch twoOfEach where
  flags := { config := some "s", tape := some 4, withFiles := ["c", "b"], operands := ["p"] }
  configured := { withFiles := ["a", "b"] }
  unknown := []
  created := []
  name := "p"
  chunks := [⟨Bytes.ofString ",.,.,.,.", .more⟩]
  lowered := ⟨#[.read, .write, .read, .write, .read, .write, .read, .write, .halt], []⟩
  parsed := by decide +kernel
  loaded := by decide +kernel
  logged := rfl
  operand := rfl
  opened := by decide +kernel
  compiled := by decide +kernel
  unlisted := rfl
  sized := ⟨_, rfl⟩

/-- The last read finds nothing more, and its cell is printed as it was. -/
theorem input_files_precede_stdin_twoOfEach :
    Settings.Lists (letters · = ·) twoOfEach.find "s" ["a", "b"] ∧
    Flags.Adds twoOfEach.args ["c", "b"] ∧
    Holds twoOfEach.find ["a", "b", "c", "b"] [[65], [], [66], []] ∧
    run 9 twoOfEach = some { code := 0, stdout := [65, 66, 67, 67] } ∧
    ∃ start, twoOfEachLaunch.Starts start ∧ start.Reads ∧ start.RunsOn [65, 66, 67] := by
  have returns : Settings.ReturnsListed (letters · = ·) twoOfEach.decode := by
    rintro data _ rfl _ _ ⟨⟩
    rfl
  obtain ⟨⟨added, adds⟩, reads⟩ := input_files_precede_stdin twoOfEachLaunch returns
  obtain rfl := adds.eq_withFiles twoOfEachLaunch.parsed
  have settings : twoOfEach.find "s" = .ok (.file (Bytes.ofString "ab")) := by decide +kernel
  have lists : Settings.Lists (letters · = ·) twoOfEach.find "s" ["a", "b"] :=
    .read settings (by decide +kernel)
  have holds : Holds twoOfEach.find ["a", "b", "c", "b"] [[65], [], [66], []] := by
    refine .cons ?_ (.cons ?_ (.cons ?_ (.cons ?_ .nil))) <;> decide +kernel
  obtain ⟨start, starts, runs⟩ := reads _ _ _ lists adds holds
  have first : start.Reads := by
    refine ⟨.read, ?_, rfl⟩
    rw [Machine.current?, starts.program, starts.fresh.1]
    rfl
  exact ⟨lists, adds, holds, by decide +kernel, start, starts, first, runs⟩

end Session

end TapeLang
