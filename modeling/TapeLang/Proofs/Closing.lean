import TapeLang.Proofs.Flushing
import TapeLang.Proofs.InputOrder

/-! # Closing exhausted readers

Whenever readers are pushed between the steps of a machine, each of them is closed at
most once, right behind the read call in which it reported the end of its input, and it
is not called any more. What may be missed is the closing of a reader that reports the
end of its input while it is the only one that was ever pushed.
-/

namespace TapeLang

/-- The readers in use, from the top. -/
def Input.readers : Input → List Reader
  | .absent => []
  | .single r => [r]
  | .stack rs => rs

theorem Input.pullByte_single (r : Reader) :
    (single r).pullByte = (r.pullByte.1, .single r.pullByte.2.1, r.pullByte.2.2) :=
  rfl

theorem Input.pullByte_stack (rs : List Reader) : (stack rs).pullByte =
    ((pullStack rs).1, .stack (pullStack rs).2.1, (pullStack rs).2.2) :=
  rfl

/-! ## Closed at most once -/

namespace Event

/-- Only open readers are called, and a reader is closed when it has just reported its end. -/
def Mindful (before : List Event) : Event → Prop
  | .read id _ _ => .close id ∉ before
  | .close id => .close id ∉ before ∧ ∃ earlier, before = earlier ++ [.read id [] .ended]
  | .write _ _ _ | .flush _ => True

theorem Orderly.closed_once {log before after : List Event} {id : Nat}
    (orderly : Orderly Mindful [] log) (split : log = before ++ .close id :: after) :
    .read id [] .ended ∈ before ∧ .close id ∉ after ∧
      ∀ data ending, .read id data ending ∉ after := by
  have later : ∀ e ∈ after, ∃ sofar, .close id ∈ sofar ∧ Mindful sofar e := by
    intro e member
    obtain ⟨first, last, rfl⟩ := List.append_of_mem member
    have split : log = [] ++ (before ++ .close id :: first) ++ e :: last := by simpa using split
    exact ⟨_, by simp, orderly.proper split⟩
  refine ⟨?_, ?_, ?_⟩
  · have here : Mindful ([] ++ before) (.close id) := orderly.proper split
    obtain ⟨_, earlier, rfl⟩ := here
    simp
  · intro member
    obtain ⟨sofar, closed, unclosed, _⟩ := later _ member
    exact unclosed closed
  · intro data ending member
    obtain ⟨sofar, closed, unclosed⟩ := later _ member
    exact unclosed closed

/-- It closes nothing, and calls no reader but these. -/
def CallsOnly (ids : List Nat) : Event → Prop
  | .read id _ _ => id ∈ ids
  | .close _ => False
  | .write _ _ _ | .flush _ => True

/-- Of these readers, which are in use or to come, none has been closed. -/
structure Tidy (ids : List Nat) (log : List Event) : Prop where
  distinct : ids.Nodup
  unclosed : ∀ id ∈ ids, .close id ∉ log
  orderly : Orderly Mindful [] log

namespace Tidy

variable {ids : List Nat} {log events : List Event}

theorem push {e : Event} (tidy : Tidy ids log) (calls : e.CallsOnly ids) :
    Tidy ids (log ++ [e]) := by
  refine ⟨tidy.distinct, ?_, .push tidy.orderly ?_⟩
  · intro id inUse member
    rcases List.mem_append.mp member with member | member
    · exact tidy.unclosed id inUse member
    · cases List.mem_singleton.mp member
      exact calls
  · cases e with
    | read id => exact tidy.unclosed id calls
    | close => exact calls.elim
    | write | flush => trivial

theorem append (tidy : Tidy ids log) (calls : ∀ e ∈ events, e.CallsOnly ids) :
    Tidy ids (log ++ events) := by
  induction events generalizing log with
  | nil => simpa using tidy
  | cons e later ih =>
      have next := tidy.push (calls e (List.mem_cons_self ..))
      simpa using ih next fun e' member => calls e' (List.mem_cons_of_mem e member)

theorem outputs (tidy : Tidy ids log) (outputs : ∀ e ∈ events, e.CallsOnly []) :
    Tidy ids (log ++ events) := by
  apply tidy.append
  intro e member
  have output := outputs e member
  cases e with
  | write | flush => trivial
  | read => cases output
  | close => exact output

theorem of_cons {id : Nat} (tidy : Tidy (id :: ids) log) : Tidy ids log where
  distinct := tidy.distinct.of_cons
  unclosed := fun id' inUse => tidy.unclosed id' (List.mem_cons_of_mem id inUse)
  orderly := tidy.orderly

theorem perm {ids' : List Nat} (tidy : Tidy ids log) (same : ids.Perm ids') : Tidy ids' log where
  distinct := same.nodup_iff.mp tidy.distinct
  unclosed := fun id inUse => tidy.unclosed id (same.mem_iff.mpr inUse)
  orderly := tidy.orderly

theorem closing {r : Reader} (tidy : Tidy (r.id :: ids) (log ++ [.read r.id [] .ended])) :
    Tidy ids (log ++ [.read r.id [] .ended] ++ Input.closing r) := by
  unfold Input.closing
  split
  · refine ⟨tidy.distinct.of_cons, ?_, .push tidy.orderly ⟨tidy.unclosed r.id (by simp), log, rfl⟩⟩
    intro id inUse member
    rcases List.mem_append.mp member with member | member
    · exact tidy.of_cons.unclosed id inUse member
    · cases List.mem_singleton.mp member
      exact (List.nodup_cons.mp tidy.distinct).1 inUse
  · simpa using tidy.of_cons

end Tidy

end Event

theorem Reader.callsOnly_pullByte {r : Reader} {ids : List Nat} (inUse : r.id ∈ ids) :
    ∀ e ∈ r.pullByte.2.2, e.CallsOnly ids := by
  intro e member
  obtain ⟨data, ending, rfl⟩ := eq_read_of_mem member
  exact inUse

namespace Event.Tidy

variable {ids : List Nat} {log : List Event}

theorem pullStack {rs : List Reader} (tidy : Tidy (rs.map Reader.id ++ ids) log) :
    Tidy ((Input.pullStack rs).2.1.map Reader.id ++ ids) (log ++ (Input.pullStack rs).2.2) := by
  induction rs generalizing log with
  | nil => simpa [Input.pullStack] using tidy
  | cons r below ih =>
      have called := tidy.append (r.callsOnly_pullByte (List.mem_cons_self ..))
      by_cases ended : r.pullByte.1 = .ended
      · -- the reader is closed and dropped, and the others are asked
        obtain ⟨idle, data, ending, calls, exhausted⟩ := r.exists_calls
        obtain ⟨rfl, rfl⟩ := exhausted.mp ended
        rw [Input.pullStack_cons_of_ended ended]
        rw [calls, ← List.append_assoc] at called
        simpa [calls] using ih called.closing
      · rw [Input.pullStack_cons_of_ne_ended ended]
        exact called

theorem pullByte {input : Input} (tidy : Tidy (input.readers.map Reader.id ++ ids) log) :
    Tidy (input.pullByte.2.1.readers.map Reader.id ++ ids) (log ++ input.pullByte.2.2) := by
  cases input with
  | absent => simpa [Input.pullByte] using tidy
  | single r => exact tidy.append (r.callsOnly_pullByte (List.mem_cons_self ..))
  | stack rs => exact tidy.pullStack

end Event.Tidy

/-! ## Closed at once -/

namespace Event

/-- Each report of the end of an input has the closing of the reader right behind it. -/
def ClosesEnded : List Event → Prop
  | [] => True
  | e :: later =>
    (∀ id, e = .read id [] .ended → later.head? = some (.close id)) ∧ ClosesEnded later

variable {log events : List Event}

theorem closesEnded_append (opens : ∀ id, events.head? ≠ some (.close id)) :
    ClosesEnded (log ++ events) ↔ ClosesEnded log ∧ ClosesEnded events := by
  induction log with
  | nil => simp [ClosesEnded]
  | cons e later ih =>
      have front : ∀ id,
          (later ++ events).head? = some (.close id) ↔ later.head? = some (.close id) := by
        intro id
        cases later with
        | nil => simpa using opens id
        | cons => rfl
      simp only [List.cons_append, ClosesEnded, front, ih, and_assoc]

theorem closesEnded_of_outputs (outputs : ∀ e ∈ events, e.CallsOnly []) : ClosesEnded events := by
  induction events with
  | nil => trivial
  | cons e later ih =>
      refine ⟨?_, ih fun e' member => outputs e' (List.mem_cons_of_mem e member)⟩
      intro id same
      cases same
      cases outputs _ (List.mem_cons_self ..)

theorem closesEnded_outputs (outputs : ∀ e ∈ events, e.CallsOnly []) :
    ClosesEnded (log ++ events) ↔ ClosesEnded log := by
  have opens : ∀ id, events.head? ≠ some (.close id) := by
    intro id first
    exact outputs _ (List.mem_of_head? first)
  rw [closesEnded_append opens]
  exact and_iff_left (closesEnded_of_outputs outputs)

theorem closesEnded_calls (r : Reader) (later : List Event) :
    ClosesEnded (r.pullByte.2.2 ++ later) ↔
      (r.pullByte.1 = .ended → later.head? = some (.close r.id)) ∧ ClosesEnded later := by
  obtain ⟨idle, data, ending, calls, exhausted⟩ := r.exists_calls
  rw [calls, exhausted]
  clear calls
  induction idle with
  | zero => simp [ClosesEnded]
  | succ idle ih => simpa [List.replicate_succ, ClosesEnded] using ih

theorem closesEnded_pullStack {rs : List Reader} (closable : ∀ r ∈ rs, r.closable = true) :
    ClosesEnded (Input.pullStack rs).2.2 := by
  induction rs with
  | nil => trivial
  | cons r below ih =>
      by_cases ended : r.pullByte.1 = .ended
      · have later := ih fun r' member => closable r' (List.mem_cons_of_mem r member)
        have closing : Input.closing r = [.close r.id] := by
          rw [Input.closing, if_pos (closable r (List.mem_cons_self ..))]
        rw [Input.pullStack_cons_of_ended ended, closing, List.append_assoc, closesEnded_calls]
        exact ⟨fun _ => rfl, by simp, later⟩
      · rw [Input.pullStack_cons_of_ne_ended ended, ← List.append_nil r.pullByte.2.2,
          closesEnded_calls]
        exact ⟨fun ended' => absurd ended' ended, trivial⟩

/-- Only a lone reader is not closed when it reports its end. -/
theorem closesEnded_pullByte {input : Input}
    (closable : ∀ r ∈ input.readers, r.closable = true) :
    ClosesEnded input.pullByte.2.2 ↔ ∀ r, input = .single r → r.pullByte.1 ≠ .ended := by
  cases input with
  | absent => simp [Input.pullByte, ClosesEnded]
  | single r =>
      have calls := closesEnded_calls r []
      simpa [Input.pullByte_single, ClosesEnded] using calls
  | stack rs =>
      have closes : ClosesEnded (Input.pullStack rs).2.2 := closesEnded_pullStack closable
      simpa [Input.pullByte_stack] using closes

end Event

namespace Input

theorem opens_pullByte (input : Input) (id : Nat) :
    input.pullByte.2.2.head? ≠ some (.close id) := by
  have calls : ∀ (r : Reader) later, (r.pullByte.2.2 ++ later).head? ≠ some (.close id) := by
    intro r later
    -- a reader that is asked is called at least once
    obtain ⟨idle, data, ending, calls, _⟩ := r.exists_calls
    rw [calls]
    cases idle <;> simp [List.replicate_succ]
  match input with
  | .absent => simp [pullByte]
  | .single r => simpa [pullByte_single] using calls r []
  | .stack [] => simp [pullByte, pullStack]
  | .stack (r :: below) =>
      rw [pullByte_stack]
      by_cases ended : r.pullByte.1 = .ended
      · rw [pullStack_cons_of_ended ended, List.append_assoc]
        exact calls r _
      · rw [pullStack_cons_of_ne_ended ended]
        simpa using calls r []

theorem closable_pullStack {rs : List Reader} (closable : ∀ r ∈ rs, r.closable = true) :
    ∀ r ∈ (pullStack rs).2.1, r.closable = true := by
  induction rs with
  | nil => simp [pullStack]
  | cons r below ih =>
      rw [List.forall_mem_cons] at closable
      by_cases ended : r.pullByte.1 = .ended
      · rw [pullStack_cons_of_ended ended]
        exact ih closable.2
      · rw [pullStack_cons_of_ne_ended ended, List.forall_mem_cons]
        exact closable

theorem closable_pullByte {input : Input} (closable : ∀ r ∈ input.readers, r.closable = true) :
    ∀ r ∈ input.pullByte.2.1.readers, r.closable = true := by
  cases input with
  | absent => simp [pullByte, readers]
  | single r =>
      have closes : r.closable = true := closable r (List.mem_singleton_self r)
      exact List.forall_mem_singleton.mpr closes
  | stack rs => exact closable_pullStack closable

theorem readers_push (r : Reader) (input : Input) :
    (input.push r).readers = r :: input.readers := by
  cases input <;> rfl

theorem readers_pushAll (rs : List Reader) (input : Input) :
    (input.pushAll rs).readers = rs.reverse ++ input.readers := by
  induction rs generalizing input with
  | nil => rfl
  | cons r rs ih =>
      have rest := ih (input.push r)
      rw [readers_push] at rest
      simpa [pushAll] using rest

end Input

/-! ## Steps and pushes -/

namespace Channels

theorem log_flush (c : Channels) : ∃ events, (∀ e ∈ events, e.CallsOnly []) ∧
    c.flush.1.log.toList = c.log.toList ++ events := by
  obtain ⟨input, output, log⟩ := c
  cases output with
  | none => exact ⟨[], by simp, by simp [flush]⟩
  | some w =>
      cases flushable : w.onFlush with
      | none =>
          rw [flush_of_none flushable]
          exact ⟨[], by simp, by simp⟩
      | some answer =>
          rw [flush_of_some flushable]
          exact ⟨[.flush _], by simp [Event.CallsOnly], Array.toList_push⟩

theorem log_write (b : UInt8) (c : Channels) : ∃ events, (∀ e ∈ events, e.CallsOnly []) ∧
    (c.write b).1.log.toList = c.log.toList ++ events := by
  obtain ⟨input, output, log⟩ := c
  cases output with
  | none => exact ⟨[], by simp, by simp [write]⟩
  | some w => exact ⟨[.write _ _ _], by simp [Event.CallsOnly], Array.toList_push⟩

/-- Output apart, a turn leaves the input alone or asks it for a byte. -/
theorem Turn.asks {reads : Prop} {c c' : Channels} (turn : c.Turn reads c') :
    ∃ events, (∀ e ∈ events, e.CallsOnly []) ∧
      ((reads → c.input = .absent ∨ c.flush.2 ≠ none) ∧ c'.input = c.input ∧
          c'.log.toList = c.log.toList ++ events ∨
        (reads ∧ c.flush.2 = none) ∧ c'.input = c.input.pullByte.2.1 ∧
          c'.log.toList = c.log.toList ++ events ++ c.input.pullByte.2.2) := by
  cases turn with
  | idle unread => exact ⟨[], by simp, .inl ⟨fun reads => .inl (unread reads), rfl, by simp⟩⟩
  | wrote unread b =>
      obtain ⟨events, outputs, log⟩ := c.log_write b
      exact ⟨events, outputs, .inl ⟨unread.elim, c.input_write b, log⟩⟩
  | flushed unread =>
      obtain ⟨events, outputs, log⟩ := c.log_flush
      exact ⟨events, outputs, .inl ⟨fun reads => .inr (unread reads), c.input_flush, log⟩⟩
  | read reading present fine =>
      obtain ⟨events, outputs, log⟩ := c.log_flush
      have input := c.input_flush
      refine ⟨events, outputs, .inr ⟨⟨reading, fine⟩, ?_, ?_⟩⟩
      · rw [← input]
        rfl
      · rw [log_pullByte, log, input]

end Channels

namespace Machine

variable {m : Machine}

/-- The next step asks the only reader that was ever pushed, and the reader reports its end. -/
def EndsAlone (m : Machine) : Prop :=
  m.Reads ∧ m.state.channels.flush.2 = none ∧
    ∃ r, m.state.channels.input = .single r ∧ r.pullByte.1 = .ended

theorem closesEnded_step
    (closable : ∀ r ∈ m.state.channels.input.readers, r.closable = true) :
    Event.ClosesEnded m.step.1.state.log ↔ Event.ClosesEnded m.state.log ∧ ¬ m.EndsAlone := by
  obtain ⟨events, outputs, ⟨unread, _, log⟩ | ⟨⟨reads, fine⟩, _, log⟩⟩ := m.steps_step.turn.asks
  · have calm : ¬ m.EndsAlone := by
      intro ⟨reads, fine, r, single, _⟩
      rcases unread reads with absent | failed
      · cases absent.symm.trans single
      · exact failed fine
    rw [State.log, log, Event.closesEnded_outputs outputs]
    exact (and_iff_left calm).symm
  · have alone : m.EndsAlone ↔
        ∃ r, m.state.channels.input = .single r ∧ r.pullByte.1 = .ended := by
      simp [EndsAlone, reads, fine]
    rw [State.log, log, Event.closesEnded_append (Input.opens_pullByte _),
      Event.closesEnded_outputs outputs, Event.closesEnded_pullByte closable, alone]
    simp [State.log]

/-- The readers in use and those to come want to be closed, and none of them has been. -/
structure Owns (m : Machine) (later : List Reader) : Prop where
  closable : ∀ r ∈ m.state.channels.input.readers ++ later, r.closable = true
  tidy : Event.Tidy (m.state.channels.input.readers.map Reader.id ++ later.map Reader.id)
    m.state.log

namespace Owns

variable {later : List Reader}

theorem step (owns : m.Owns later) : m.step.1.Owns later := by
  obtain ⟨closable, tidy⟩ := owns
  obtain ⟨events, outputs, ⟨_, input, log⟩ | ⟨_, input, log⟩⟩ := m.steps_step.turn.asks
  · constructor
    · rwa [input]
    · rw [State.log, input, log]
      exact tidy.outputs outputs
  · rw [List.forall_mem_append] at closable
    constructor
    · rw [input, List.forall_mem_append]
      exact ⟨Input.closable_pullByte closable.1, closable.2⟩
    · rw [State.log, input, log]
      exact (tidy.outputs outputs).pullByte

theorem push {r : Reader} (owns : m.Owns (r :: later)) : (m.pushInput r).Owns later := by
  obtain ⟨closable, tidy⟩ := owns
  have readers : (m.pushInput r).state.channels.input.readers =
      r :: m.state.channels.input.readers :=
    Input.readers_push r _
  constructor
  · rw [readers]
    intro r' member
    exact closable r' (List.perm_middle.symm.mem_iff.mp member)
  · rw [readers]
    exact tidy.perm List.perm_middle

end Owns

/-- What may happen to a machine. Between its steps everything but its input and log may be taken
    from elsewhere. -/
inductive Act where
  | push (r : Reader)
  | step
  | arrange (other : Machine)

def act (m : Machine) : Act → Machine
  | .push r => m.pushInput r
  | .step => m.step.1
  | .arrange other =>
    { other with
      state.channels.input := m.state.channels.input
      state.channels.log := m.state.channels.log }

def after (m : Machine) (acts : List Act) : Machine :=
  acts.foldl act m

/-- The reader that is pushed. -/
def Act.reader? : Act → Option Reader
  | .push r => some r
  | .step | .arrange _ => none

theorem Owns.act {a : Act} {acts : List Act}
    (owns : m.Owns ((a :: acts).filterMap Act.reader?)) :
    (m.act a).Owns (acts.filterMap Act.reader?) := by
  cases a with
  | push r => exact owns.push
  | step => exact owns.step
  | arrange other => exact ⟨owns.closable, owns.tidy⟩

theorem Owns.after {acts : List Act} (owns : m.Owns (acts.filterMap Act.reader?)) :
    (m.after acts).Owns [] := by
  induction acts generalizing m with
  | nil => exact owns
  | cons a acts ih => exact ih owns.act

theorem closesEnded_after {acts : List Act} (owns : m.Owns (acts.filterMap Act.reader?)) :
    Event.ClosesEnded (m.after acts).state.log ↔ Event.ClosesEnded m.state.log ∧
      ∀ done rest, acts = done ++ .step :: rest → ¬ (m.after done).EndsAlone := by
  induction acts generalizing m with
  | nil => simp [after]
  | cons a acts ih =>
      have first : Event.ClosesEnded (m.act a).state.log ↔
          Event.ClosesEnded m.state.log ∧ (a = .step → ¬ m.EndsAlone) := by
        cases a with
        | push | arrange => simp [act, pushInput, State.log]
        | step =>
            have closable := (List.forall_mem_append.mp owns.closable).1
            simpa [act] using closesEnded_step closable
      have others := ih owns.act
      rw [first, and_assoc] at others
      refine others.trans (and_congr_right fun _ => ⟨?_, ?_⟩)
      · intro ⟨here, later⟩ done rest split
        cases done with
        | nil =>
            cases split
            exact here rfl
        | cons a' done =>
            cases split
            exact later done rest rfl
      · intro never
        refine ⟨?_, ?_⟩
        · intro same
          exact never [] acts (by rw [same]; rfl)
        · intro done rest split
          exact never (a :: done) rest (by rw [split]; rfl)

/-! ## New machines -/

theorem log_new {program : Program} {settings : List Setting}
    (made : new program settings = .ok m) : m.state.log = [] := by
  unfold new at made
  split at made
  · cases made
  · next ok =>
      cases made
      exact (configure_keeps ok).2.2.2

theorem owns_new {program : Program} {settings : List Setting} {later : List Reader}
    (made : new program settings = .ok m)
    (distinct : ((settings.filterMap Setting.reader? ++ later).map Reader.id).Nodup)
    (closable : ∀ r ∈ settings.filterMap Setting.reader? ++ later, r.closable = true) :
    m.Owns later := by
  have readers : m.state.channels.input.readers =
      (settings.filterMap Setting.reader?).reverse := by
    rw [input_new made, Input.readers_pushAll]
    exact List.append_nil _
  constructor
  · rw [readers]
    simpa using closable
  · rw [readers, log_new made, List.map_reverse]
    rw [List.map_append] at distinct
    refine ⟨?_, by simp, .start⟩
    exact (List.Perm.append_right _ (List.reverse_perm _)).nodup_iff.mpr distinct

/-- Let readers that want to be closed be pushed at any time. A reader is closed at most once, not
    before it has reported its end, and is not called afterwards. And each is closed as soon as it
    reports its end exactly if none ever does while it is the only one that was pushed. -/
theorem exhausted_readers_closed_iff {program : Program} {settings : List Setting}
    {start : Machine} (acts : List Act) (made : new program settings = .ok start)
    (distinct : ((settings.filterMap Setting.reader? ++ acts.filterMap Act.reader?).map
      Reader.id).Nodup)
    (closable : ∀ r ∈ settings.filterMap Setting.reader? ++ acts.filterMap Act.reader?,
      r.closable = true) :
    (∀ before id after, (start.after acts).state.log = before ++ .close id :: after →
      .read id [] .ended ∈ before ∧ .close id ∉ after ∧
        ∀ data ending, .read id data ending ∉ after) ∧
    (Event.ClosesEnded (start.after acts).state.log ↔
      ∀ done rest, acts = done ++ .step :: rest → ¬ (start.after done).EndsAlone) := by
  have owns := owns_new made distinct closable
  constructor
  · intro before id after split
    exact owns.after.tidy.orderly.closed_once split
  · rw [closesEnded_after owns, log_new made]
    exact and_iff_right trivial

/-- Two reads, where a second reader is pushed on top of the first before the second read: it is
    exhausted from the start, and by then the first is, too. -/
def joined : Except SizeProblem Machine :=
  new #[.read, .read] [.tapeSize 1, .input ⟨0, [⟨[7], .more⟩], true⟩]

def joinedActs : List Act :=
  [.step, .push ⟨1, [⟨[], .more⟩, ⟨[], .ended⟩], true⟩, .step, .step]

theorem exhausted_readers_closed_iff_joined : ∃ m, joined = .ok m ∧
    (m.after joinedActs).state.log = [.read 0 [7] .more, .read 1 [] .more, .read 1 [] .ended,
      .close 1, .read 0 [] .ended, .close 0] ∧
    (∀ data ending, .read 1 data ending ∉ [.read 0 [] .ended, Event.close 0]) ∧
    ∀ done rest, joinedActs = done ++ .step :: rest → ¬ (m.after done).EndsAlone := by
  obtain ⟨m, made⟩ : ∃ m, joined = .ok m := ⟨_, rfl⟩
  have log : (m.after joinedActs).state.log = [.read 0 [7] .more, .read 1 [] .more,
      .read 1 [] .ended, .close 1, .read 0 [] .ended, .close 0] := by
    cases made
    decide +kernel
  have both := exhausted_readers_closed_iff joinedActs made (by decide) (by decide)
  rw [log] at both
  obtain ⟨once, atOnce⟩ := both
  have after := once [.read 0 [7] .more, .read 1 [] .more, .read 1 [] .ended] 1
    [.read 0 [] .ended, .close 0] rfl
  exact ⟨m, made, log, after.2.2, atOnce.mp (by simp [Event.ClosesEnded])⟩

/-- One read, and one reader that is exhausted from the start. -/
def lone : Except SizeProblem Machine :=
  new #[.read] [.tapeSize 1, .input ⟨0, [], true⟩]

/-- The reader reports its end, and when the run has ended well it still is not closed. -/
theorem lone_reader_not_closed : ∃ m last, lone = .ok m ∧ m.run 2 = some (last, .ok ()) ∧
    last.state.log = [.read 0 [] .ended] ∧ ¬ Event.ClosesEnded last.state.log := by
  obtain ⟨m, made⟩ : ∃ m, lone = .ok m := ⟨_, rfl⟩
  have ended : (m.run 2).map (fun x => (x.1.state.log, x.2)) =
      some ([.read 0 [] .ended], .ok ()) := by
    cases made
    decide +kernel
  obtain ⟨⟨last, _⟩, ran, same⟩ := Option.map_eq_some_iff.mp ended
  obtain ⟨log, rfl⟩ := by simpa only [Prod.mk.injEq] using same
  refine ⟨m, last, made, ran, log, ?_⟩
  rw [log]
  simp [Event.ClosesEnded]

end Machine

end TapeLang
