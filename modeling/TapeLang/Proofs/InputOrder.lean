import Mathlib.Data.List.Forall2
import TapeLang.Machine.Setup
import TapeLang.Proofs.ChannelUse
import TapeLang.Proofs.Delivery
import TapeLang.Proofs.Safety

/-! # The order of the input

Readers that do not fail give a machine their bytes in order, those of the reader
on top first. How the bytes are chunked makes no difference, nor does it matter
when the end of a reader is reported.
-/

namespace TapeLang

/-- What asking for a byte gives if these bytes are still to come. -/
def ByteRead.ofFront : Bytes → ByteRead
  | [] => .ended
  | b :: _ => .byte b

/-- The tape with an answer in the current cell; at the end of the input it stays as it is. -/
def ByteRead.stored (t : Tape) : ByteRead → Tape
  | .byte b => t.setCell b
  | .ended | .failed _ => t

theorem ByteRead.stored_ofFront (bytes : Bytes) (t : Tape) :
    (ofFront bytes).stored t = bytes.head?.elim t fun b => t.setCell b := by
  cases bytes <;> rfl

theorem Reader.pullFrom_delivers {chunks : List Chunk} {bytes : Bytes}
    (delivers : Delivers chunks bytes) (id : Nat) : ∃ left events,
      pullFrom id chunks = (.ofFront bytes, left, events) ∧ Delivers left bytes.tail := by
  induction delivers with
  | nil => exact ⟨[], _, rfl, .nil⟩
  | @more data bytes rest later ih =>
      match data with
      | [] =>
          obtain ⟨left, events, pulled, delivers⟩ := ih
          exact ⟨left, _, by rw [pullFrom, pulled]; rfl, delivers⟩
      | [b] => exact ⟨rest, _, rfl, later⟩
      | b :: b' :: data => exact ⟨⟨b' :: data, .more⟩ :: rest, _, rfl, .more later⟩
  | @ended data rest nothing ih =>
      match data with
      | [] => exact ⟨rest, _, rfl, nothing⟩
      | [b] => exact ⟨rest, _, rfl, nothing⟩
      | b :: b' :: data => exact ⟨⟨b' :: data, .ended⟩ :: rest, _, rfl, .ended nothing⟩

namespace Input

/-- The input will give these bytes. -/
inductive Supplies : Input → Bytes → Prop where
  | single {r : Reader} {bytes : Bytes} (delivers : Delivers r.chunks bytes) :
      Supplies (.single r) bytes
  | stack {rs : List Reader} {datas : List Bytes}
      (delivers : List.Forall₂ (fun r data => Delivers r.chunks data) rs datas) :
      Supplies (.stack rs) datas.flatten

variable {input : Input} {bytes : Bytes}

theorem Supplies.ne_absent (supplies : input.Supplies bytes) : input ≠ .absent := by
  cases supplies <;> simp

theorem pullStack_delivers {rs : List Reader} {datas : List Bytes}
    (delivers : List.Forall₂ (fun r data => Delivers r.chunks data) rs datas) :
    ∃ left events datas', pullStack rs = (.ofFront datas.flatten, left, events) ∧
      List.Forall₂ (fun r data => Delivers r.chunks data) left datas' ∧
      datas'.flatten = datas.flatten.tail := by
  induction delivers with
  | nil => exact ⟨[], [], [], rfl, .nil, rfl⟩
  | @cons r data below datas here later ih =>
      obtain ⟨chunks, events, pulled, delivers⟩ := Reader.pullFrom_delivers here r.id
      cases data with
      | nil =>
          -- this reader is dropped, and the others are asked
          obtain ⟨left, more, datas', same, others, rest⟩ := ih
          refine ⟨left, events ++ closing { r with chunks } ++ more, datas', ?_, others, rest⟩
          simp only [pullStack, Reader.pullByte, pulled, ByteRead.ofFront, same]
          rfl
      | cons b data =>
          refine ⟨{ r with chunks } :: below, events, data :: datas, ?_, .cons delivers later, rfl⟩
          simp only [pullStack, Reader.pullByte, pulled, ByteRead.ofFront]
          rfl

theorem Supplies.pullByte (supplies : input.Supplies bytes) : ∃ left events,
    input.pullByte = (.ofFront bytes, left, events) ∧ left.Supplies bytes.tail := by
  cases supplies with
  | @single r _ delivers =>
      obtain ⟨chunks, events, pulled, delivers⟩ := Reader.pullFrom_delivers delivers r.id
      refine ⟨.single { r with chunks }, events, ?_, .single delivers⟩
      simp only [Input.pullByte, Reader.pullByte, pulled]
  | stack delivers =>
      obtain ⟨left, events, datas', pulled, delivers, rest⟩ := pullStack_delivers delivers
      refine ⟨.stack left, events, ?_, rest ▸ .stack delivers⟩
      simp only [Input.pullByte, pulled]

theorem Supplies.push {r : Reader} {data : Bytes} (supplies : input.Supplies bytes)
    (delivers : Delivers r.chunks data) : (input.push r).Supplies (data ++ bytes) := by
  cases supplies with
  | @single below _ others =>
      have both := Supplies.stack (.cons delivers (.cons others .nil))
      simpa [Input.push] using both
  | stack others => exact .stack (.cons delivers others)

/-- There is an input, and it answers with a byte or its end. -/
structure Answers (input : Input) (outcome : ByteRead) (left : Input) (events : List Event) :
    Prop where
  present : input ≠ .absent
  pulled : input.pullByte = (outcome, left, events)
  answered : ∀ message, outcome ≠ .failed message

theorem Supplies.answers (supplies : input.Supplies bytes) : ∃ left events,
    input.Answers (.ofFront bytes) left events ∧ left.Supplies bytes.tail := by
  obtain ⟨left, events, pulled, rest⟩ := supplies.pullByte
  refine ⟨left, events, ⟨supplies.ne_absent, pulled, ?_⟩, rest⟩
  cases bytes <;> simp [ByteRead.ofFront]

/-- Put readers on top, one after the other. -/
def pushAll (rs : List Reader) (input : Input) : Input :=
  rs.foldl (fun input r => input.push r) input

theorem Supplies.pushAll {rs : List Reader} {datas : List Bytes} (supplies : input.Supplies bytes)
    (delivers : List.Forall₂ (fun r data => Delivers r.chunks data) rs datas) :
    (input.pushAll rs).Supplies (datas.reverse.flatten ++ bytes) := by
  induction delivers generalizing input bytes with
  | nil => exact supplies
  | cons here _ ih => simpa [Input.pushAll] using ih (supplies.push here)

/-- The readers that were put on an empty stack are asked from the last to the first. -/
theorem supplies_of_pushes {rs : List Reader} {datas : List Bytes} (nonempty : rs ≠ [])
    (delivers : List.Forall₂ (fun r data => Delivers r.chunks data) rs datas) :
    (absent.pushAll rs).Supplies datas.reverse.flatten := by
  cases delivers with
  | nil => exact absurd rfl nonempty
  | @cons r data rs datas here later =>
      have supplies := Supplies.pushAll (Supplies.single here) later
      simpa [Input.pushAll, Input.push] using supplies

end Input

/-- The reader that a setting puts on the input stack. -/
def Setting.reader? : Setting → Option Reader
  | .input r => some r
  | .tapeSize _ | .output _ => none

namespace Machine

variable {m m' : Machine} {bytes : Bytes}

/-! ## Setting up -/

theorem input_configure {settings : List Setting} (ok : configure settings m = (m', none)) :
    m'.state.channels.input =
      m.state.channels.input.pushAll (settings.filterMap Setting.reader?) := by
  induction settings generalizing m with
  | nil =>
      cases ok
      rfl
  | cons s rest ih =>
      rw [configure] at ok
      split at ok
      · cases ok
      · next set =>
          rw [ih ok]
          cases s with
          | tapeSize size =>
              rw [Machine.set] at set
              split at set
              · cases set
              · cases set
                rfl
          | input r =>
              cases set
              rfl
          | output w =>
              cases set
              rfl

theorem input_new {program : Program} {settings : List Setting}
    (made : new program settings = .ok m) :
    m.state.channels.input = Input.absent.pushAll (settings.filterMap Setting.reader?) := by
  unfold new at made
  split at made
  · cases made
  · next ok =>
      cases made
      exact input_configure ok

/-- Put readers on the input stack, the last on top. -/
def pushInputs (rs : List Reader) (m : Machine) : Machine :=
  rs.foldl (fun m r => m.pushInput r) m

theorem pushInputs_eq (rs : List Reader) (m : Machine) : m.pushInputs rs =
    { m with state.channels.input := m.state.channels.input.pushAll rs } := by
  induction rs generalizing m with
  | nil => rfl
  | cons r rs ih =>
      rw [pushInputs, List.foldl_cons]
      exact ih (m.pushInput r)

/-! ## Reading -/

/-- A read waits for the flush before it, and then takes what the input answers. -/
theorem step_pull {outcome : ByteRead} {left : Input} {events : List Event} (on : m.tape.OnTape)
    (reads : m.Reads) (answers : m.state.channels.input.Answers outcome left events) :
    (∀ c failure, m.state.channels.flush = (c, some failure) →
      m.step = (⟨m.program, m.pc, m.count, ⟨m.tape, c⟩⟩,
        some (.error (.io ⟨.write, m.pc, failure⟩)))) ∧
    ∀ c, m.state.channels.flush = (c, none) →
      m.step = (⟨m.program, m.pc.next, m.count + 1,
        ⟨outcome.stored m.tape, ⟨left, c.output, c.log ++ events⟩⟩⟩, none) := by
  obtain ⟨i, found, op⟩ := reads
  obtain ⟨present, pulled, answered⟩ := answers
  rw [step_of_current found]
  obtain ⟨program, pc, count, ⟨tape, channels⟩⟩ := m
  dsimp only at present pulled ⊢
  constructor
  · intro c failure flushed
    simp only [perform, Instruction.exec, op, State.read, if_neg present, flushed]
    rfl
  · intro c flushed
    have kept := channels.input_flush
    rw [flushed] at kept
    rw [← kept] at pulled
    simp only [perform, Instruction.exec, op, State.read, if_neg present, flushed,
      Channels.pullByte, pulled]
    cases outcome with
    | ended => rfl
    | failed message => exact absurd rfl (answered message)
    | byte b =>
        simp only [State.store]
        rw [State.touching_of_inRange]
        · rfl
        · exact on

theorem step_read (on : m.tape.OnTape) (reads : m.Reads)
    (supplies : m.state.channels.input.Supplies bytes) :
    (∀ c failure, m.state.channels.flush = (c, some failure) →
      m.step = (⟨m.program, m.pc, m.count, ⟨m.tape, c⟩⟩,
        some (.error (.io ⟨.write, m.pc, failure⟩)))) ∧
    ∀ c, m.state.channels.flush = (c, none) → ∃ c', c'.input.Supplies bytes.tail ∧
      m.step = (⟨m.program, m.pc.next, m.count + 1,
        ⟨bytes.head?.elim m.tape fun b => m.tape.setCell b, c'⟩⟩, none) := by
  obtain ⟨left, events, answers, rest⟩ := supplies.answers
  obtain ⟨fails, goes⟩ := step_pull on reads answers
  rw [ByteRead.stored_ofFront] at goes
  exact ⟨fails, fun c flushed => ⟨⟨left, c.output, c.log ++ events⟩, rest, goes c flushed⟩⟩

/-- From `start` on, the machine has read `j` times. Between steps, everything but its input may be
    changed as long as the pointer stays on the tape. -/
inductive Comes (start : Machine) : Nat → Machine → Prop where
  | start : Comes start 0 start
  | read {j : Nat} {m m' : Machine} (comes : Comes start j m) (reads : m.Reads)
      (done : m.step = (m', none)) : Comes start (j + 1) m'
  | other {j : Nat} {m : Machine} (comes : Comes start j m) (unread : m.Reads → m.step.2 ≠ none) :
      Comes start j m.step.1
  | changed {j : Nat} {m m' : Machine} (comes : Comes start j m) (on : m'.tape.OnTape)
      (same : m'.state.channels.input = m.state.channels.input) : Comes start j m'

/-- If an input of each kind answers and is then of the next kind, the input of a machine that has
    read `j` times is of the `j`-th kind. -/
theorem Comes.keeps {start : Machine} {j : Nat} {G : Nat → Input → Prop} (comes : Comes start j m)
    (each : ∀ j input, G j input →
      ∃ outcome left events, input.Answers outcome left events ∧ G (j + 1) left)
    (on : start.tape.OnTape) (holds : G 0 start.state.channels.input) :
    m.tape.OnTape ∧ G j m.state.channels.input := by
  induction comes with
  | start => exact ⟨on, holds⟩
  | @read j m m' _ reads done ih =>
      obtain ⟨on, holds⟩ := ih
      obtain ⟨outcome, left, events, answers, next⟩ := each j _ holds
      obtain ⟨fails, goes⟩ := step_pull on reads answers
      have kept := onTape_step on
      rw [done] at kept
      refine ⟨kept, ?_⟩
      rcases flushed : m.state.channels.flush with ⟨c, _ | failure⟩
      · cases done.symm.trans (goes c flushed)
        exact next
      · cases done.symm.trans (fails c failure flushed)
  | @other j m _ unread ih =>
      obtain ⟨on, holds⟩ := ih
      refine ⟨onTape_step on, ?_⟩
      by_cases reads : m.Reads
      · obtain ⟨outcome, left, events, answers, _⟩ := each j _ holds
        obtain ⟨fails, goes⟩ := step_pull on reads answers
        rcases flushed : m.state.channels.flush with ⟨c, _ | failure⟩
        · rw [goes c flushed] at unread
          exact absurd rfl (unread reads)
        · have kept := m.state.channels.input_flush
          rw [flushed] at kept
          rw [fails c failure flushed]
          exact kept ▸ holds
      · rwa [input_step reads]
  | changed _ on same ih =>
      rw [same]
      exact ⟨on, ih.2⟩

theorem Comes.supplies {start : Machine} {j : Nat} (comes : Comes start j m)
    (on : start.tape.OnTape) (supplies : start.state.channels.input.Supplies bytes) :
    m.tape.OnTape ∧ m.state.channels.input.Supplies (bytes.drop j) := by
  refine comes.keeps (G := fun j input => input.Supplies (bytes.drop j)) ?_ on supplies
  intro j input supplies
  obtain ⟨left, events, answers, rest⟩ := supplies.answers
  rw [List.tail_drop] at rest
  exact ⟨_, left, events, answers, rest⟩

/-- A machine whose readers deliver their data gets the bytes of the last reader first and those
    of the first reader last. Each time it reads it stores the next of them in the current cell,
    and once there are no more it leaves the tape as it is. -/
theorem reads_bytes_in_order {program : Program} {settings : List Setting} {new : Machine}
    {later : List Reader} {datas : List Bytes} {j : Nat} {m : Machine}
    (made : Machine.new program settings = .ok new)
    (nonempty : settings.filterMap Setting.reader? ++ later ≠ [])
    (delivers : List.Forall₂ (fun r data => Delivers r.chunks data)
      (settings.filterMap Setting.reader? ++ later) datas)
    (comes : Comes (new.pushInputs later) j m) (reads : m.Reads) :
    (∀ c failure, m.state.channels.flush = (c, some failure) →
      m.step = (⟨m.program, m.pc, m.count, ⟨m.tape, c⟩⟩,
        some (.error (.io ⟨.write, m.pc, failure⟩)))) ∧
    ∀ c, m.state.channels.flush = (c, none) → ∃ c',
      m.step = (⟨m.program, m.pc.next, m.count + 1,
        ⟨datas.reverse.flatten[j]?.elim m.tape fun b => m.tape.setCell b, c'⟩⟩, none) := by
  have on := new_onTape made
  have input := input_new made
  have supplies := Input.supplies_of_pushes nonempty delivers
  have ready : (new.pushInputs later).state.channels.input.Supplies datas.reverse.flatten := by
    rw [pushInputs_eq]
    simpa [input, Input.pushAll] using supplies
  have home : (new.pushInputs later).tape.OnTape := by
    rw [pushInputs_eq]
    exact on
  obtain ⟨here, supplies⟩ := comes.supplies home ready
  obtain ⟨fails, goes⟩ := step_read here reads supplies
  refine ⟨fails, ?_⟩
  intro c flushed
  obtain ⟨c', _, moved⟩ := goes c flushed
  rw [List.head?_drop] at moved
  exact ⟨c', moved⟩

/-- The second byte comes from two readers further down, and one in between has none. -/
theorem reads_bytes_in_order_below : ∃ new m c',
    Machine.new #[.read, .read] [.tapeSize 1, .input ⟨0, [⟨[65], .ended⟩], false⟩,
      .input ⟨1, [⟨[], .ended⟩], true⟩] = .ok new ∧
    Comes (new.pushInputs [⟨2, [⟨[], .more⟩, ⟨[66], .more⟩], false⟩]) 1 m ∧ m.tape.cell = 66 ∧
    m.step = (⟨m.program, m.pc.next, m.count + 1, ⟨m.tape.setCell 65, c'⟩⟩, none) := by
  let new : Machine := ⟨#[.read, .read], 0, 0, .blank 1 (by decide) (by decide),
    { input := .stack [⟨1, [⟨[], .ended⟩], true⟩, ⟨0, [⟨[65], .ended⟩], false⟩] }⟩
  let start := new.pushInputs [⟨2, [⟨[], .more⟩, ⟨[66], .more⟩], false⟩]
  have made : Machine.new #[.read, .read] [.tapeSize 1, .input ⟨0, [⟨[65], .ended⟩], false⟩,
      .input ⟨1, [⟨[], .ended⟩], true⟩] = .ok new := rfl
  have comes : Comes start 1 start.step.1 := .read .start ⟨.read, rfl, rfl⟩ rfl
  have delivers : List.Forall₂ (fun (r : Reader) data => Delivers r.chunks data)
      [⟨0, [⟨[65], .ended⟩], false⟩, ⟨1, [⟨[], .ended⟩], true⟩,
        ⟨2, [⟨[], .more⟩, ⟨[66], .more⟩], false⟩]
      [[65], [], [66]] :=
    .cons (.ended .nil) (.cons (.ended .nil) (.cons (.more (.more .nil)) .nil))
  obtain ⟨c', moved⟩ :=
    (reads_bytes_in_order made (by decide) delivers comes ⟨.read, rfl, rfl⟩).2 _ rfl
  exact ⟨new, _, c', made, comes, by decide +kernel, moved⟩

end Machine

end TapeLang
