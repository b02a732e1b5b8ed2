import TapeLang.Proofs.InputOrder
import TapeLang.Stream.EndOfTransmission

/-! # Input ended by a control byte

A filtered read call passes on what comes before the first control byte in it and
reports the end. The filter remembers nothing between calls, so the input is over for
good only as long as every later call finds the end, or the control byte again, at
once. A machine that reads through the filter takes one byte of the input at a time,
and the control byte leaves its cell as the end of the input does.
-/

namespace TapeLang

namespace Reader

def stream (r : Reader) : Bytes :=
  r.chunks.flatMap Chunk.data

/-- What successive read calls deliver to the filter. -/
def reads (r : Reader) : List Nat → List Chunk
  | [] => []
  | capacity :: rest => (r.read capacity).1 :: reads (r.read capacity).2 rest

theorem readTransmissions_eq (r : Reader) (sizes : List Nat) :
    r.readTransmissions sizes = (r.reads sizes).map cutTransmission := by
  induction sizes generalizing r with
  | nil => rfl
  | cons capacity rest ih => exact congrArg (_ :: ·) (ih _)

theorem stream_read (capacity : Nat) (r : Reader) :
    r.stream = (r.read capacity).1.data ++ (r.read capacity).2.stream := by
  obtain ⟨id, chunks, closable⟩ := r
  cases chunks with
  | nil => rfl
  | cons c rest =>
      simp only [stream, read, take]
      split
      · simp
      · simp only [List.flatMap_cons, ← List.append_assoc, List.take_append_drop]

/-- The bytes before the first control byte. -/
def untilEnd (bytes : Bytes) : Bytes :=
  bytes.takeWhile (· != endOfTransmission)

theorem untilEnd_append_of_mem {bytes : Bytes} (met : endOfTransmission ∈ bytes) (later : Bytes) :
    untilEnd (bytes ++ later) = untilEnd bytes := by
  induction bytes with
  | nil => cases met
  | cons b rest ih =>
      by_cases here : b = endOfTransmission
      · simp [untilEnd, here]
      · have behind : endOfTransmission ∈ rest := by simpa [Ne.symm here] using met
        have same := ih behind
        simp only [untilEnd] at same
        simp [untilEnd, here, same]

theorem untilEnd_append_of_notMem {bytes : Bytes} (free : endOfTransmission ∉ bytes)
    (later : Bytes) : untilEnd (bytes ++ later) = bytes ++ untilEnd later := by
  apply List.takeWhile_append_of_pos
  intro b member
  simp only [bne_iff_ne, ne_eq]
  rintro rfl
  exact free member

theorem cut_of_mem {c : Chunk} (met : endOfTransmission ∈ c.data) :
    cutTransmission c = ⟨untilEnd c.data, .ended⟩ := by
  simp [cutTransmission, met, untilEnd]

theorem cut_of_notMem {c : Chunk} (free : endOfTransmission ∉ c.data) : cutTransmission c = c := by
  simp [cutTransmission, free]

theorem cut_eq_ended_iff {c : Chunk} : cutTransmission c = ⟨[], .ended⟩ ↔
    c = ⟨[], .ended⟩ ∨ c.data.head? = some endOfTransmission := by
  obtain ⟨data, ending⟩ := c
  by_cases met : endOfTransmission ∈ data
  · rw [cut_of_mem met]
    cases data with
    | nil => cases met
    | cons b rest => by_cases here : b = endOfTransmission <;> simp [untilEnd, here]
  · rw [cut_of_notMem met]
    have away : data.head? ≠ some endOfTransmission := fun first => met (List.mem_of_head? first)
    simp [away]

/-! ## Successive calls -/

/-- Nothing from behind the first control byte is ever passed on, and every call after one that met
    the byte reports the end of the input. -/
structure EndsForGood (r : Reader) (sizes : List Nat) : Prop where
  delivered : (r.readTransmissions sizes).flatMap Chunk.data <+: untilEnd r.stream
  ended : ∀ (j k : Nat) (met later : Chunk), j < k → (r.reads sizes)[j]? = some met →
    endOfTransmission ∈ met.data → (r.readTransmissions sizes)[k]? = some later →
      later = ⟨[], .ended⟩

/-- Every call after one that met the control byte finds the end, or the byte again, at once. -/
def NothingBehind (r : Reader) (sizes : List Nat) : Prop :=
  (r.reads sizes).Pairwise fun met later => endOfTransmission ∈ met.data →
    later = ⟨[], .ended⟩ ∨ later.data.head? = some endOfTransmission

instance (r : Reader) (sizes : List Nat) : Decidable (r.NothingBehind sizes) :=
  inferInstanceAs (Decidable (List.Pairwise _ _))

variable {r : Reader} {sizes : List Nat}

theorem NothingBehind.delivered (nothing : r.NothingBehind sizes) :
    (r.readTransmissions sizes).flatMap Chunk.data <+: untilEnd r.stream := by
  rw [readTransmissions_eq]
  induction sizes generalizing r with
  | nil => exact List.nil_prefix
  | cons capacity rest ih =>
      obtain ⟨behind, later⟩ := List.pairwise_cons.mp nothing
      rw [stream_read capacity r, reads, List.map_cons, List.flatMap_cons]
      by_cases met : endOfTransmission ∈ (r.read capacity).1.data
      · have silent :
            (((r.read capacity).2.reads rest).map cutTransmission).flatMap Chunk.data = [] := by
          simp only [List.flatMap_eq_nil_iff, List.forall_mem_map]
          intro c member
          rw [cut_eq_ended_iff.mpr (behind c member met)]
        refine ⟨[], ?_⟩
        simp only [silent, cut_of_mem met, untilEnd_append_of_mem met, List.append_nil]
      · rw [cut_of_notMem met, untilEnd_append_of_notMem met]
        exact (List.prefix_append_right_inj _).mpr (ih later)

theorem endsForGood_iff : r.EndsForGood sizes ↔ r.NothingBehind sizes := by
  constructor
  · intro ends
    refine List.pairwise_iff_getElem.mpr fun j k jInside kInside lt has => ?_
    apply cut_eq_ended_iff.mp
    apply ends.ended j k _ _ lt (List.getElem?_eq_getElem jInside) has
    rw [readTransmissions_eq, List.getElem?_map, List.getElem?_eq_getElem kInside]
    rfl
  · intro nothing
    refine ⟨nothing.delivered, ?_⟩
    intro j k met later lt found has passed
    rw [readTransmissions_eq, List.getElem?_map, Option.map_eq_some_iff] at passed
    obtain ⟨c, passed, rfl⟩ := passed
    obtain ⟨jInside, rfl⟩ := List.getElem?_eq_some_iff.mp found
    obtain ⟨kInside, rfl⟩ := List.getElem?_eq_some_iff.mp passed
    exact cut_eq_ended_iff.mpr (List.pairwise_iff_getElem.mp nothing j k jInside kInside lt has)

/-- The calls up to the first that meets the control byte pass on everything before it. -/
theorem delivered_of_first_met {n : Nat} {met : Chunk} (found : (r.reads sizes)[n]? = some met)
    (has : endOfTransmission ∈ met.data)
    (first : ∀ j c, j < n → (r.reads sizes)[j]? = some c → endOfTransmission ∉ c.data) :
    ((r.readTransmissions sizes).take (n + 1)).flatMap Chunk.data = untilEnd r.stream := by
  rw [readTransmissions_eq]
  induction n generalizing r sizes with
  | zero =>
      cases sizes with
      | nil => cases found
      | cons capacity rest =>
          cases found
          rw [stream_read capacity r, untilEnd_append_of_mem has]
          simp [reads, cut_of_mem has]
  | succ n ih =>
      cases sizes with
      | nil => cases found
      | cons capacity rest =>
          have free := first 0 _ (Nat.succ_pos n) rfl
          have later := ih found fun j c lt => first (j + 1) c (Nat.succ_lt_succ lt)
          rw [stream_read capacity r, untilEnd_append_of_notMem free, ← later]
          simp [reads, cut_of_notMem free]

end Reader

/-! ## Reading through the filter -/

/-- What calls with a one-byte buffer get of a chunk. -/
def Chunk.bytewise (ending : Ending) : Bytes → List Chunk
  | [] => [⟨[], ending⟩]
  | [b] => [⟨[b], ending⟩]
  | b :: b' :: data => ⟨[b], .more⟩ :: bytewise ending (b' :: data)

namespace Reader

def transmitted (chunks : List Chunk) : List Chunk :=
  (chunks.flatMap fun c => Chunk.bytewise c.ending c.data).map cutTransmission

/-- The reader behind the filter, as calls with a one-byte buffer see it. -/
def transmission (r : Reader) : Reader :=
  { r with chunks := transmitted r.chunks }

theorem transmitted_empty (ending : Ending) (rest : List Chunk) :
    transmitted (⟨[], ending⟩ :: rest) = ⟨[], ending⟩ :: transmitted rest := by
  simp [transmitted, Chunk.bytewise, cutTransmission]

theorem transmitted_last (b : UInt8) (ending : Ending) (rest : List Chunk) :
    transmitted (⟨[b], ending⟩ :: rest) = cutTransmission ⟨[b], ending⟩ :: transmitted rest := by
  simp [transmitted, Chunk.bytewise]

theorem transmitted_more (b b' : UInt8) (data : Bytes) (ending : Ending) (rest : List Chunk) :
    transmitted (⟨b :: b' :: data, ending⟩ :: rest) =
      cutTransmission ⟨[b], .more⟩ :: transmitted (⟨b' :: data, ending⟩ :: rest) := by
  simp [transmitted, Chunk.bytewise]

theorem take_cut (b : UInt8) (ending : Ending) (rest : List Chunk) :
    take 1 (cutTransmission ⟨[b], ending⟩ :: rest) = (cutTransmission ⟨[b], ending⟩, rest) := by
  by_cases here : b = endOfTransmission
  · simp [cutTransmission, here, take]
  · simp [cutTransmission, Ne.symm here, take]

/-- One filtered call with a one-byte buffer. -/
theorem read_transmission (r : Reader) : r.transmission.read 1 =
    ((r.readTransmission 1).1, (r.readTransmission 1).2.transmission) := by
  obtain ⟨id, chunks, closable⟩ := r
  have answer : take 1 (transmitted chunks) =
      (cutTransmission (take 1 chunks).1, transmitted (take 1 chunks).2) := by
    match chunks with
    | [] => rfl
    | ⟨[], ending⟩ :: rest =>
        rw [transmitted_empty]
        rfl
    | ⟨[b], ending⟩ :: rest =>
        rw [transmitted_last, take_cut]
        rfl
    | ⟨b :: b' :: data, ending⟩ :: rest =>
        rw [transmitted_more, take_cut]
        rfl
  simp only [read, readTransmission, transmission, answer]

end Reader

def ByteRead.cut : ByteRead → ByteRead
  | .byte b => if b = Reader.endOfTransmission then .ended else .byte b
  | .ended => .ended
  | .failed message => .failed message

namespace Reader

theorem pullFrom_cut (id : Nat) (b : UInt8) (ending : Ending) (rest : List Chunk) : ∃ events,
    pullFrom id (cutTransmission ⟨[b], ending⟩ :: rest) =
      ((ByteRead.byte b).cut, rest, events) := by
  by_cases here : b = endOfTransmission
  · exact ⟨_, by simp [cutTransmission, here, pullFrom, ByteRead.cut]; rfl⟩
  · exact ⟨_, by simp [cutTransmission, here, Ne.symm here, pullFrom, ByteRead.cut]; rfl⟩

/-- Asking for a byte through the filter is asking for it, with the control byte for an end. -/
theorem pullFrom_transmitted (id : Nat) (chunks : List Chunk) : ∃ events,
    pullFrom id (transmitted chunks) =
      ((pullFrom id chunks).1.cut, transmitted (pullFrom id chunks).2.1, events) := by
  fun_induction pullFrom id chunks with
  | case1 => exact ⟨_, rfl⟩
  | case2 rest outcome left events pulled ih =>
      obtain ⟨events', same⟩ := ih
      rw [transmitted_empty, pullFrom, same, pulled]
      exact ⟨_, rfl⟩
  | case3 | case4 =>
      rw [transmitted_empty]
      exact ⟨_, rfl⟩
  | case5 =>
      rw [transmitted_last]
      exact pullFrom_cut ..
  | case6 =>
      rw [transmitted_more]
      exact pullFrom_cut ..

theorem answers_transmission {r : Reader} {bytes : Bytes} (delivers : Delivers r.chunks bytes) :
    ∃ r' events, (Input.single r.transmission).Answers (ByteRead.ofFront bytes).cut
      (.single (transmission r')) events ∧ Delivers r'.chunks bytes.tail := by
  obtain ⟨left, events, pulled, rest⟩ := pullFrom_delivers delivers r.id
  obtain ⟨events', same⟩ := pullFrom_transmitted r.id r.chunks
  rw [pulled] at same
  refine ⟨{ r with chunks := left }, events', ⟨by simp, ?_, ?_⟩, rest⟩
  · simp only [Input.pullByte, pullByte, transmission, same]
  · intro message
    cases bytes with
    | nil => simp [ByteRead.ofFront, ByteRead.cut]
    | cons b _ =>
        by_cases here : b = endOfTransmission <;> simp [ByteRead.ofFront, ByteRead.cut, here]

end Reader

theorem ByteRead.stored_cut_ofFront (bytes : Bytes) (t : Tape) : (ofFront bytes).cut.stored t =
    (bytes.head?.filter (· != Reader.endOfTransmission)).elim t fun b => t.setCell b := by
  cases bytes with
  | nil => rfl
  | cons b rest =>
      by_cases here : b = Reader.endOfTransmission <;>
        simp [ofFront, ByteRead.cut, here, Option.filter, stored]

open Machine in
/-- A machine whose only input comes through the filter: each time it reads it takes the next byte,
    and the control byte leaves its cell as it is. -/
theorem Machine.step_read_transmission {start m : Machine} {r : Reader} {bytes : Bytes} {j : Nat}
    {c : Channels} (on : start.tape.OnTape)
    (input : start.state.channels.input = .single r.transmission)
    (delivers : Delivers r.chunks bytes) (comes : Comes start j m) (reads : m.Reads)
    (flushed : m.state.channels.flush = (c, none)) : ∃ c',
      m.step = (⟨m.program, m.pc.next, m.count + 1,
        ⟨(bytes[j]?.filter (· != Reader.endOfTransmission)).elim m.tape fun b => m.tape.setCell b,
          c'⟩⟩, none) := by
  let G (j : Nat) (input : Input) : Prop :=
    ∃ r : Reader, input = .single r.transmission ∧ Delivers r.chunks (bytes.drop j)
  have each : ∀ j input, G j input →
      ∃ outcome left events, input.Answers outcome left events ∧ G (j + 1) left := by
    rintro j _ ⟨r, rfl, delivers⟩
    obtain ⟨r', events, answers, rest⟩ := Reader.answers_transmission delivers
    rw [List.tail_drop] at rest
    exact ⟨_, _, events, answers, r', rfl, rest⟩
  obtain ⟨here, r', same, rest⟩ := comes.keeps each on ⟨r, input, delivers⟩
  obtain ⟨r'', events, answers, _⟩ := Reader.answers_transmission rest
  rw [← same] at answers
  have moved := (step_pull here reads answers).2 c flushed
  rw [ByteRead.stored_cut_ofFront, List.head?_drop] at moved
  exact ⟨_, moved⟩

/-- Up to the first control byte everything is passed on. The input is then over for good exactly as
    long as nothing but the end, or the control byte again, is found behind it. A machine that
    reads through the filter takes the bytes one by one, also those behind a control byte. -/
theorem transmission_over_iff_nothing_behind (r : Reader) (sizes : List Nat) :
    (∀ (n : Nat) (met : Chunk), (r.reads sizes)[n]? = some met →
      Reader.endOfTransmission ∈ met.data →
      (∀ (j : Nat) (c : Chunk), j < n → (r.reads sizes)[j]? = some c →
        Reader.endOfTransmission ∉ c.data) →
      ((r.readTransmissions sizes).take (n + 1)).flatMap Chunk.data = Reader.untilEnd r.stream) ∧
    (r.EndsForGood sizes ↔ r.NothingBehind sizes) ∧
    (r.transmission.read 1 = ((r.readTransmission 1).1, (r.readTransmission 1).2.transmission)) ∧
    ∀ (bytes : Bytes) (start m : Machine) (j : Nat) (c : Channels), Delivers r.chunks bytes →
      start.tape.OnTape → start.state.channels.input = .single r.transmission →
      Machine.Comes start j m → m.Reads → m.state.channels.flush = (c, none) → ∃ c',
      m.step = (⟨m.program, m.pc.next, m.count + 1,
        ⟨(bytes[j]?.filter (· != Reader.endOfTransmission)).elim m.tape fun b => m.tape.setCell b,
          c'⟩⟩, none) := by
  refine ⟨?_, Reader.endsForGood_iff, r.read_transmission, ?_⟩
  · intro n met found has first
    exact Reader.delivered_of_first_met found has first
  · intro bytes start m j c delivers on input comes reads flushed
    exact Machine.step_read_transmission on input delivers comes reads flushed

/-- The control byte is met twice, and what follows it the second time is lost with it. -/
def Reader.twiceEnded : Reader :=
  ⟨0, [⟨[97, 4], .more⟩, ⟨[4, 98], .ended⟩], false⟩

def Machine.readsTwice : Except SizeProblem Machine :=
  new #[.read, .read] [.tapeSize 1, .input Reader.twiceEnded.transmission]

theorem transmission_over_iff_nothing_behind_twiceEnded :
    Reader.twiceEnded.readTransmissions [8, 8, 1] =
      [⟨[97], .ended⟩, ⟨[], .ended⟩, ⟨[], .ended⟩] ∧
    ((Reader.twiceEnded.readTransmissions [8, 8, 1]).take 1).flatMap Chunk.data =
      Reader.untilEnd Reader.twiceEnded.stream ∧
    Reader.twiceEnded.NothingBehind [8, 8, 1] ∧ Reader.twiceEnded.EndsForGood [8, 8, 1] ∧
    ∃ m c, Machine.readsTwice = .ok m ∧ m.step.1.tape.cells = #[97] ∧
      m.step.1.step = (⟨m.program, m.step.1.pc.next, 2, ⟨m.step.1.tape, c⟩⟩, none) := by
  obtain ⟨first, forGood, _, machine⟩ :=
    transmission_over_iff_nothing_behind Reader.twiceEnded [8, 8, 1]
  have before := first 0 ⟨[97, 4], .more⟩ rfl (by decide) (by simp)
  have nothing : Reader.twiceEnded.NothingBehind [8, 8, 1] := by decide
  obtain ⟨m, made⟩ : ∃ m, Machine.readsTwice = .ok m := ⟨_, rfl⟩
  have on := Machine.new_onTape made
  have delivers : Delivers Reader.twiceEnded.chunks [97, 4, 4, 98] := .more (.ended .nil)
  have reads : m.Reads ∧ m.step.1.Reads := by
    cases made
    exact ⟨⟨.read, rfl, rfl⟩, ⟨.read, rfl, rfl⟩⟩
  have moved : m.step = (m.step.1, none) := by
    cases made
    rfl
  have flushed : m.step.1.state.channels.flush = (m.step.1.state.channels, none) := by
    cases made
    rfl
  -- the second read meets the control byte
  obtain ⟨c, kept⟩ := machine _ m m.step.1 1 _ delivers on (Machine.input_new made)
    (.read .start reads.1 moved) reads.2 flushed
  refine ⟨rfl, before, nothing, forGood.mpr nothing, m, c, made, ?_, ?_⟩
  · cases made
    rfl
  · cases made
    exact kept

/-- Three bytes, the control byte in the middle. -/
def Reader.goesOn : Reader :=
  ⟨0, [⟨[97, 4, 98], .more⟩], false⟩

def Machine.readsThree : Except SizeProblem Machine :=
  new #[.read, .right 1, .read, .right 1, .read] [.tapeSize 3, .input Reader.goesOn.transmission]

/-- The byte behind the control byte is delivered, and a machine reads it. -/
theorem filter_delivers_behind_end :
    Reader.goesOn.readTransmissions [1, 1, 1] = [⟨[97], .more⟩, ⟨[], .ended⟩, ⟨[98], .more⟩] ∧
    ¬ Reader.goesOn.EndsForGood [1, 1, 1] ∧
    ∃ m last, Machine.readsThree = .ok m ∧ m.run 6 = some (last, .ok ()) ∧
      last.tape.cells = #[97, 0, 98] := by
  refine ⟨rfl, ?_, ?_⟩
  · intro ends
    have last := ends.ended 1 2 ⟨[4], .more⟩ ⟨[98], .more⟩ (by decide) rfl (by decide) rfl
    cases last
  · obtain ⟨m, made⟩ : ∃ m, Machine.readsThree = .ok m := ⟨_, rfl⟩
    have ended : (m.run 6).map (fun x => (x.1.tape.cells, x.2)) = some (#[97, 0, 98], .ok ()) := by
      cases made
      decide +kernel
    obtain ⟨⟨last, _⟩, ran, same⟩ := Option.map_eq_some_iff.mp ended
    obtain ⟨cells, rfl⟩ := by simpa only [Prod.mk.injEq] using same
    exact ⟨m, last, made, ran, cells⟩

end TapeLang
