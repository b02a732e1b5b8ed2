import TapeLang.Proofs.Steps

/-! # Output is flushed before the machine waits

An output that can be flushed has been flushed, with success and since the last write
call, at every read call of a run and where a run ends well. The log shows it: one step
keeps it in order, and so does a run.
-/

namespace TapeLang

/-! ## Logs -/

namespace Event

/-- Every write call has a successful flush behind it. -/
def Settled : List Event → Prop
  | [] => True
  | .write _ _ _ :: later => .flush true ∈ later ∧ Settled later
  | .read _ _ _ :: later | .flush _ :: later | .close _ :: later => Settled later

theorem settled_flushed (log : List Event) : Settled (log ++ [.flush true]) := by
  induction log with
  | nil => trivial
  | cons e later ih =>
      cases e with
      | write => exact ⟨by simp, ih⟩
      | read | close | flush => exact ih

/-- A read call or the closing of a reader. -/
def IsInput (e : Event) : Prop :=
  (∃ reader data ending, e = .read reader data ending) ∨ ∃ reader, e = .close reader

theorem Settled.push {log : List Event} {e : Event} (settled : Settled log) (input : e.IsInput) :
    Settled (log ++ [e]) := by
  induction log with
  | nil => obtain ⟨_, _, _, rfl⟩ | ⟨_, rfl⟩ := input <;> trivial
  | cons first later ih =>
      cases first with
      | write => exact ⟨List.mem_append_left _ settled.1, ih settled.2⟩
      | read | close | flush => exact ih settled

/-- The log goes on from `start`, and each new event is in order behind those before it. -/
inductive Orderly (P : List Event → Event → Prop) (start : List Event) : List Event → Prop where
  | start : Orderly P start start
  | push {log : List Event} {e : Event} (orderly : Orderly P start log) (proper : P log e) :
      Orderly P start (log ++ [e])

namespace Orderly

variable {P : List Event → Event → Prop} {start log log' : List Event}

theorem trans (first : Orderly P start log) (second : Orderly P log log') :
    Orderly P start log' := by
  induction second with
  | start => exact first
  | push _ proper ih => exact .push ih proper

theorem grown (orderly : Orderly P start log) : ∃ events, log = start ++ events := by
  induction orderly with
  | start => exact ⟨[], (List.append_nil start).symm⟩
  | @push _ e _ _ ih =>
      obtain ⟨events, rfl⟩ := ih
      exact ⟨events ++ [e], List.append_assoc ..⟩

/-- Wherever an event stands behind the start, it is in order there. -/
theorem proper {before after : List Event} {e : Event} (orderly : Orderly P start log)
    (split : log = start ++ before ++ e :: after) : P (start ++ before) e := by
  induction orderly generalizing after with
  | start =>
      have longer := congrArg List.length split
      simp only [List.length_append, List.length_cons] at longer
      omega
  | @push log last _ proper ih =>
      rcases List.eq_nil_or_concat after with rfl | ⟨after, e', rfl⟩
      · obtain ⟨rfl, same⟩ := List.append_inj' split rfl
        cases same
        exact proper
      · have split : log ++ [last] = (start ++ before ++ e :: after) ++ [e'] := by simpa using split
        exact ih (List.append_inj' split rfl).1

end Orderly

/-- A read call stands behind flushed output. -/
def ReadsSettled (before : List Event) (e : Event) : Prop :=
  ∀ reader data ending, e = .read reader data ending → Settled before

theorem Settled.orderly {log events : List Event} (settled : Settled log)
    (inputs : ∀ e ∈ events, e.IsInput) : Orderly ReadsSettled log (log ++ events) := by
  induction events generalizing log with
  | nil => simpa using Orderly.start
  | cons e later ih =>
      have input := inputs e (List.mem_cons_self ..)
      have rest := ih (settled.push input) fun e' member =>
        inputs e' (List.mem_cons_of_mem e member)
      have first : Orderly ReadsSettled log (log ++ [e]) := .push .start fun _ _ _ _ => settled
      simpa using first.trans rest

end Event

/-! ## What is logged -/

theorem Reader.calls_pullFrom (id : Nat) (chunks : List Chunk) : ∃ idle data ending,
    (pullFrom id chunks).2.2 =
      List.replicate idle (.read id [] .more) ++ [.read id data ending] ∧
    ((pullFrom id chunks).1 = .ended ↔ data = [] ∧ ending = .ended) := by
  fun_induction pullFrom id chunks with
  | case2 rest outcome left events pulled ih =>
      rw [pulled] at ih
      obtain ⟨idle, data, ending, calls, ended⟩ := ih
      exact ⟨idle + 1, data, ending, congrArg (Event.read id [] .more :: ·) calls, ended⟩
  | case1 | case3 => exact ⟨0, [], .ended, rfl, by simp⟩
  | case4 => exact ⟨0, [], _, rfl, by simp⟩
  | case5 => exact ⟨0, _, _, rfl, by simp⟩
  | case6 => exact ⟨0, _, _, rfl, by simp⟩

/-- To ask for a byte, a reader is called until it does not answer with nothing. -/
theorem Reader.exists_calls (r : Reader) : ∃ idle data ending,
    r.pullByte.2.2 = List.replicate idle (.read r.id [] .more) ++ [.read r.id data ending] ∧
    (r.pullByte.1 = .ended ↔ data = [] ∧ ending = .ended) :=
  calls_pullFrom r.id r.chunks

theorem Reader.eq_read_of_mem {r : Reader} {e : Event} (member : e ∈ r.pullByte.2.2) :
    ∃ data ending, e = .read r.id data ending := by
  obtain ⟨idle, data, ending, calls, _⟩ := r.exists_calls
  rw [calls, List.mem_append, List.mem_replicate, List.mem_singleton] at member
  rcases member with ⟨_, same⟩ | same
  · exact ⟨_, _, same⟩
  · exact ⟨_, _, same⟩

theorem Reader.isInput_pullByte {r : Reader} {e : Event} (member : e ∈ r.pullByte.2.2) :
    e.IsInput := by
  obtain ⟨data, ending, same⟩ := eq_read_of_mem member
  exact .inl ⟨r.id, data, ending, same⟩

namespace Input

theorem pullStack_cons_of_ended {r : Reader} (ended : r.pullByte.1 = .ended)
    (below : List Reader) : pullStack (r :: below) =
      ((pullStack below).1, (pullStack below).2.1,
        r.pullByte.2.2 ++ closing r ++ (pullStack below).2.2) := by
  rcases pulled : Reader.pullFrom r.id r.chunks with ⟨outcome, chunks, events⟩
  simp only [Reader.pullByte, pulled] at ended
  simp only [pullStack, Reader.pullByte, pulled, ended]
  rfl

theorem pullStack_cons_of_ne_ended {r : Reader} (goes : r.pullByte.1 ≠ .ended)
    (below : List Reader) : pullStack (r :: below) =
      (r.pullByte.1, r.pullByte.2.1 :: below, r.pullByte.2.2) := by
  rcases pulled : r.pullByte with ⟨outcome, r', events⟩
  rw [pulled] at goes
  cases outcome with
  | ended => exact absurd rfl goes
  | byte | failed => simp only [pullStack, pulled]

theorem isInput_pullStack {rs : List Reader} {e : Event} (member : e ∈ (pullStack rs).2.2) :
    e.IsInput := by
  induction rs with
  | nil => cases member
  | cons r below ih =>
      by_cases ended : r.pullByte.1 = .ended
      · rw [pullStack_cons_of_ended ended] at member
        simp only [List.mem_append] at member
        rcases member with (member | member) | member
        · exact Reader.isInput_pullByte member
        · unfold closing at member
          split at member
          · cases List.mem_singleton.mp member
            exact .inr ⟨_, rfl⟩
          · cases member
        · exact ih member
      · rw [pullStack_cons_of_ne_ended ended] at member
        exact Reader.isInput_pullByte member

theorem isInput_pullByte {input : Input} {e : Event} (member : e ∈ input.pullByte.2.2) :
    e.IsInput := by
  cases input with
  | absent => cases member
  | single r => exact Reader.isInput_pullByte member
  | stack rs => exact isInput_pullStack member

end Input

namespace Channels

variable {c c' : Channels}

/-- There is an output, and it can be flushed. -/
def Flushable (c : Channels) : Prop :=
  ∃ w, c.output = some w ∧ w.onFlush.isSome

theorem Flushable.flush (flushable : c.Flushable) : c.flush.1.Flushable ∧
    c.flush.1.log.toList = c.log.toList ++ [.flush c.flush.2.isNone] := by
  obtain ⟨input, output, log⟩ := c
  obtain ⟨w, rfl, can⟩ := flushable
  obtain ⟨answer, found⟩ := Option.isSome_iff_exists.mp can
  rw [flush_of_some found]
  exact ⟨⟨_, rfl, can⟩, by simp⟩

theorem Flushable.settled (flushable : c.Flushable) (fine : c.flush.2 = none) :
    Event.Settled c.flush.1.log.toList := by
  rw [flushable.flush.2, fine]
  exact Event.settled_flushed _

theorem log_pullByte (c : Channels) :
    c.pullByte.1.log.toList = c.log.toList ++ c.input.pullByte.2.2 := by
  simp [pullByte]

theorem Turn.flushable {reads : Prop} (turn : c.Turn reads c') (flushable : c.Flushable) :
    c'.Flushable := by
  cases turn with
  | idle => exact flushable
  | wrote _ b =>
      obtain ⟨input, output, log⟩ := c
      obtain ⟨w, rfl, can⟩ := flushable
      exact ⟨_, rfl, can⟩
  | flushed => exact flushable.flush.1
  | read => exact flushable.flush.1

/-- A step makes read calls only while everything written is flushed. -/
theorem Turn.orderly {reads : Prop} (turn : c.Turn reads c') (flushable : c.Flushable) :
    Event.Orderly Event.ReadsSettled c.log.toList c'.log.toList := by
  cases turn with
  | idle => exact .start
  | wrote _ b =>
      obtain ⟨input, output, log⟩ := c
      obtain ⟨w, rfl, can⟩ := flushable
      simp only [write, Array.toList_push]
      exact .push .start (by simp [Event.ReadsSettled])
  | flushed =>
      rw [flushable.flush.2]
      exact .push .start (by simp [Event.ReadsSettled])
  | read _ _ fine =>
      have settled := flushable.settled fine
      have flushed : Event.Orderly Event.ReadsSettled c.log.toList c.flush.1.log.toList := by
        rw [flushable.flush.2]
        exact .push .start (by simp [Event.ReadsSettled])
      rw [log_pullByte]
      exact flushed.trans (settled.orderly fun e => Input.isInput_pullByte)

end Channels

namespace Machine

variable {m last : Machine}

theorem orderly_follow (flushable : m.state.channels.Flushable) (n : Nat) :
    (follow step n m).1.state.channels.Flushable ∧
      Event.Orderly Event.ReadsSettled m.state.log (follow step n m).1.state.log := by
  let I (m' : Machine) : Prop := m'.state.channels.Flushable ∧
    Event.Orderly Event.ReadsSettled m.state.log m'.state.log
  have keeps : ∀ m', I m' → I m'.step.1 := by
    intro m' ⟨can, sofar⟩
    have turn := m'.steps_step.turn
    exact ⟨turn.flushable can, sofar.trans (turn.orderly can)⟩
  exact (follow_keeps keeps n ⟨flushable, .start⟩).1

theorem flush_of_step_ok (ended : m.step = (last, some (.ok ()))) :
    m.state.channels.flush = (last.state.channels, none) := by
  have steps := m.steps_step
  rw [ended] at steps
  cases steps with
  | ends _ _ flushed => exact flushed

/-- With an output that can be flushed: at every read call of a run, a flush has succeeded since the
    last write call, whenever that was, and one has when a run ends well. -/
theorem flushes_before_waiting (m : Machine) (flushable : m.state.channels.Flushable) :
    (∀ n, ∃ events, (follow step n { m with count := 0 }).1.state.log = m.state.log ++ events ∧
      ∀ before reader data ending after, events = before ++ .read reader data ending :: after →
        Event.Settled (m.state.log ++ before)) ∧
    ∀ limit last, m.run limit = some (last, .ok ()) → Event.Settled last.state.log := by
  constructor
  · intro n
    have orderly := (orderly_follow (m := { m with count := 0 }) flushable n).2
    obtain ⟨events, grown⟩ := orderly.grown
    refine ⟨events, grown, ?_⟩
    intro before reader data ending after split
    rw [split, ← List.append_assoc] at grown
    exact orderly.proper grown reader data ending rfl
  · intro limit last ran
    rw [Machine.run, resume_eq_some_iff] at ran
    obtain ⟨k, m', reached, ended⟩ := follow_last ran
    have can := (orderly_follow (m := { m with count := 0 }) flushable k).1
    rw [reached] at can
    have flushed := flush_of_step_ok ended
    have settled := can.settled (by rw [flushed])
    rwa [flushed] at settled

/-- A program that writes a prompt, reads a byte and writes it. The reader is called twice for the
    byte. -/
def prompts : Except SizeProblem Machine :=
  new #[.add 63, .write, .read, .write] [.tapeSize 1,
    .output (some { onFlush := some fun _ => none }),
    .input ⟨0, [⟨[], .more⟩, ⟨[33], .more⟩], false⟩]

theorem flushes_before_waiting_prompts : ∃ m last, prompts = .ok m ∧
    m.state.channels.Flushable ∧ (follow step 3 { m with count := 0 }).1.state.log =
      [.write [63] 1 true, .flush true, .read 0 [] .more, .read 0 [33] .more] ∧
    Event.Settled [.write [63] 1 true, .flush true, .read 0 [] .more] ∧
    m.run 5 = some (last, .ok ()) ∧ Event.Settled last.state.log := by
  obtain ⟨m, made⟩ : ∃ m, prompts = .ok m := ⟨_, rfl⟩
  have flushable : m.state.channels.Flushable := by
    cases made
    exact ⟨_, rfl, rfl⟩
  have log : (follow step 3 { m with count := 0 }).1.state.log =
      [.write [63] 1 true, .flush true, .read 0 [] .more, .read 0 [33] .more] := by
    cases made
    decide +kernel
  have empty : m.state.log = [] := by
    cases made
    rfl
  have ended : (m.run 5).map (·.2) = some (.ok ()) := by
    cases made
    decide +kernel
  obtain ⟨⟨last, _⟩, ran, rfl⟩ := Option.map_eq_some_iff.mp ended
  obtain ⟨waits, ends⟩ := flushes_before_waiting m flushable
  obtain ⟨events, grown, settled⟩ := waits 3
  rw [log, empty] at grown
  have settled :=
    settled [.write [63] 1 true, .flush true, .read 0 [] .more] 0 [33] .more [] grown.symm
  rw [empty] at settled
  exact ⟨m, last, made, flushable, log, settled, ran, ends 5 last ran⟩

end Machine

end TapeLang
