import TapeLang.Stream.Channels

/-! # Failures put in

Channels that now and then fail without having transferred anything, compared with
channels that do not. Calling them either meets one of the failures, after which one
fewer is left, or does what calling the others does.
-/

namespace TapeLang

/-- The second sequence is the first with `k` entries of some kind put in. -/
inductive Interspersed {α : Type} (extra : α → Prop) : Nat → (Nat → α) → (Nat → α) → Prop where
  | same (f : Nat → α) : Interspersed extra 0 f f
  | keep {k : Nat} {f g : Nat → α} (head : g 0 = f 0)
      (tail : Interspersed extra k (fun n => f (n + 1)) fun n => g (n + 1)) :
      Interspersed extra k f g
  | put {k : Nat} {f g : Nat → α} (head : extra (g 0))
      (tail : Interspersed extra k f fun n => g (n + 1)) : Interspersed extra (k + 1) f g

theorem Interspersed.front {α : Type} {extra : α → Prop} {k : Nat} {f g : Nat → α}
    (interspersed : Interspersed extra k f g) :
    (extra (g 0) ∧ ∃ j < k, Interspersed extra j f fun n => g (n + 1)) ∨
      (g 0 = f 0 ∧ Interspersed extra k (fun n => f (n + 1)) fun n => g (n + 1)) := by
  cases interspersed with
  | same => exact .inr ⟨rfl, .same _⟩
  | keep head tail => exact .inr ⟨head, tail⟩
  | @put k _ _ head tail => exact .inl ⟨head, k, Nat.lt_succ_self k, tail⟩

/-! ## Input -/

/-- The second chunks are the first with `k` failed reads put in. Reads that give nothing may be
    missing. -/
inductive Chunk.Hindered : Nat → List Chunk → List Chunk → Prop where
  | nil : Hindered 0 [] []
  | keep {k : Nat} {cs ds : List Chunk} (c : Chunk) (later : Hindered k cs ds) :
      Hindered k (c :: cs) (c :: ds)
  | failure {k : Nat} {cs ds : List Chunk} (message : String) (later : Hindered k cs ds) :
      Hindered (k + 1) cs (⟨[], .failed message⟩ :: ds)
  | within {k : Nat} {cs ds : List Chunk} {front back : Bytes} {ending : Ending}
      (first : front ≠ []) (last : back ≠ []) (later : Hindered k (⟨back, ending⟩ :: cs) ds) :
      Hindered k (⟨front ++ back, ending⟩ :: cs) (⟨front, .more⟩ :: ds)
  | idle {k : Nat} {cs ds : List Chunk} (later : Hindered k cs ds) :
      Hindered k (⟨[], .more⟩ :: cs) ds

theorem Chunk.Hindered.pullFrom {k : Nat} {cs ds : List Chunk} (hindered : Hindered k cs ds)
    (id id' : Nat) :
    (∃ message, (Reader.pullFrom id' ds).1 = .failed message ∧
      ∃ j < k, Hindered j cs (Reader.pullFrom id' ds).2.1) ∨
    ((Reader.pullFrom id' ds).1 = (Reader.pullFrom id cs).1 ∧
      Hindered k (Reader.pullFrom id cs).2.1 (Reader.pullFrom id' ds).2.1) := by
  induction hindered with
  | nil => exact .inr ⟨rfl, .nil⟩
  | @keep k cs ds c later ih =>
      obtain ⟨data, ending⟩ := c
      match data, ending with
      | [], .more =>
          rcases ih with ⟨message, failed, j, fewer, left⟩ | ⟨same, left⟩
          · exact .inl ⟨message, failed, j, fewer, .idle left⟩
          · exact .inr ⟨same, left⟩
      | [], .ended | [], .failed _ | [b], ending => exact .inr ⟨rfl, later⟩
      | b :: b' :: data, ending => exact .inr ⟨rfl, .keep _ later⟩
  | @failure k cs ds message later ih =>
      exact .inl ⟨message, rfl, k, Nat.lt_succ_self k, later⟩
  | @within k cs ds front back ending first last later ih =>
      match front, back with
      | [], _ => exact absurd rfl first
      | _, [] => exact absurd rfl last
      | [b], b' :: back => exact .inr ⟨rfl, later⟩
      | b :: b' :: front, back =>
          have shorter : Hindered k (⟨b' :: front ++ back, ending⟩ :: cs)
              (⟨b' :: front, .more⟩ :: ds) := .within (by simp) last later
          exact .inr ⟨rfl, shorter⟩
  | @idle k cs ds later ih =>
      rcases ih with ⟨message, failed, j, fewer, left⟩ | ⟨same, left⟩
      · exact .inl ⟨message, failed, j, fewer, .idle left⟩
      · exact .inr ⟨same, left⟩

/-- The same readers with `k` failed reads put in. Readers on top that have nothing more to give
    may be missing. -/
inductive Reader.Hindered : Nat → List Reader → List Reader → Prop where
  | nil : Hindered 0 [] []
  | cons {j k : Nat} {r r' : Reader} {rs rs' : List Reader}
      (chunks : Chunk.Hindered j r.chunks r'.chunks) (below : Hindered k rs rs') :
      Hindered (j + k) (r :: rs) (r' :: rs')
  | dropped {k : Nat} {r : Reader} {rs rs' : List Reader}
      (exhausted : (Reader.pullFrom r.id r.chunks).1 = .ended) (below : Hindered k rs rs') :
      Hindered k (r :: rs) rs'

theorem pullStack_of_ended {r : Reader} (exhausted : (Reader.pullFrom r.id r.chunks).1 = .ended)
    (below : List Reader) : (Input.pullStack (r :: below)).1 = (Input.pullStack below).1 ∧
      (Input.pullStack (r :: below)).2.1 = (Input.pullStack below).2.1 := by
  rcases pulled : Reader.pullFrom r.id r.chunks with ⟨outcome, left, events⟩
  rw [pulled] at exhausted
  cases exhausted
  simp [Input.pullStack, Reader.pullByte, pulled]

theorem pullStack_of_ne_ended {r : Reader} (goes : (Reader.pullFrom r.id r.chunks).1 ≠ .ended)
    (below : List Reader) :
    (Input.pullStack (r :: below)).1 = (Reader.pullFrom r.id r.chunks).1 ∧
      (Input.pullStack (r :: below)).2.1 =
        { r with chunks := (Reader.pullFrom r.id r.chunks).2.1 } :: below := by
  rcases pulled : Reader.pullFrom r.id r.chunks with ⟨outcome, left, events⟩
  rw [pulled] at goes
  cases outcome with
  | ended => exact absurd rfl goes
  | byte | failed => simp [Input.pullStack, Reader.pullByte, pulled]

theorem Reader.Hindered.pullStack {k : Nat} {rs rs' : List Reader} (hindered : Hindered k rs rs') :
    (∃ message, (Input.pullStack rs').1 = .failed message ∧
      ∃ j < k, Hindered j rs (Input.pullStack rs').2.1) ∨
    ((Input.pullStack rs').1 = (Input.pullStack rs).1 ∧
      ∃ j ≤ k, Hindered j (Input.pullStack rs).2.1 (Input.pullStack rs').2.1) := by
  induction hindered with
  | nil => exact .inr ⟨rfl, 0, Nat.le_refl 0, .nil⟩
  | @cons j k r r' rs rs' chunks below ih =>
      rcases chunks.pullFrom r.id r'.id with ⟨message, failed, i, fewer, left⟩ | ⟨same, left⟩
      · obtain ⟨outcome, rest⟩ := pullStack_of_ne_ended (r := r') (by simp [failed]) rs'
        rw [outcome, rest]
        exact .inl ⟨message, failed, i + k, by omega, .cons left below⟩
      by_cases exhausted : (Reader.pullFrom r.id r.chunks).1 = .ended
      · -- both readers are dropped, the failures left in the one with it
        obtain ⟨outcome, rest⟩ := pullStack_of_ended exhausted rs
        obtain ⟨outcome', rest'⟩ := pullStack_of_ended (same.trans exhausted) rs'
        rw [outcome, rest, outcome', rest']
        rcases ih with ⟨message, failed, i, fewer, left⟩ | ⟨same, i, fewer, left⟩
        · exact .inl ⟨message, failed, i, by omega, .dropped exhausted left⟩
        · exact .inr ⟨same, i, by omega, left⟩
      · obtain ⟨outcome, rest⟩ := pullStack_of_ne_ended exhausted rs
        obtain ⟨outcome', rest'⟩ := pullStack_of_ne_ended (same ▸ exhausted) rs'
        rw [outcome, rest, outcome', rest']
        exact .inr ⟨same, j + k, Nat.le_refl _, .cons left below⟩
  | @dropped k r rs rs' exhausted below ih =>
      obtain ⟨outcome, rest⟩ := pullStack_of_ended exhausted rs
      rw [outcome, rest]
      rcases ih with ⟨message, failed, i, fewer, left⟩ | ⟨same, i, fewer, left⟩
      · exact .inl ⟨message, failed, i, fewer, .dropped exhausted left⟩
      · exact .inr ⟨same, i, fewer, left⟩

/-- The same input with `k` failed reads put in. -/
inductive Input.Hindered : Nat → Input → Input → Prop where
  | absent : Hindered 0 .absent .absent
  | single {k : Nat} {r r' : Reader} (chunks : Chunk.Hindered k r.chunks r'.chunks) :
      Hindered k (.single r) (.single r')
  | stack {k : Nat} {rs rs' : List Reader} (readers : Reader.Hindered k rs rs') :
      Hindered k (.stack rs) (.stack rs')

theorem Input.Hindered.absent_iff {k : Nat} {input input' : Input}
    (hindered : Hindered k input input') : input' = .absent ↔ input = .absent := by
  cases hindered <;> simp

theorem Input.Hindered.pullByte {k : Nat} {input input' : Input}
    (hindered : Hindered k input input') :
    (∃ message, input'.pullByte.1 = .failed message ∧
      ∃ j < k, Hindered j input input'.pullByte.2.1) ∨
    (input'.pullByte.1 = input.pullByte.1 ∧
      ∃ j ≤ k, Hindered j input.pullByte.2.1 input'.pullByte.2.1) := by
  cases hindered with
  | absent => exact .inr ⟨rfl, 0, Nat.le_refl 0, .absent⟩
  | @single k r r' chunks =>
      rcases chunks.pullFrom r.id r'.id with ⟨message, failed, j, fewer, left⟩ | ⟨same, left⟩
      · exact .inl ⟨message, failed, j, fewer, .single left⟩
      · exact .inr ⟨same, k, Nat.le_refl k, .single left⟩
  | stack readers =>
      rcases readers.pullStack with ⟨message, failed, j, fewer, left⟩ | ⟨same, j, fewer, left⟩
      · exact .inl ⟨message, failed, j, fewer, .stack left⟩
      · exact .inr ⟨same, j, fewer, .stack left⟩

/-! ## Output -/

namespace Channels

variable {input : Input} {w : Writer} {log : Array Event}

theorem flush_of_none (flushable : w.onFlush = none) :
    flush ⟨input, some w, log⟩ = (⟨input, some w, log⟩, none) := by
  simp only [flush, Writer.flush?, flushable, Option.map_none]

theorem flush_of_some {answer : Nat → Option String} (flushable : w.onFlush = some answer) :
    flush ⟨input, some w, log⟩ =
      (⟨input, some { w with flushes := w.flushes + 1 },
        log.push (.flush (answer w.flushes).isNone)⟩, (answer w.flushes).map Failure.ofFlush) := by
  simp only [flush, Writer.flush?, flushable, Option.map_some]

end Channels

/-- Nothing is taken and the call fails. -/
def Reply.IsRefusal (reply : Reply) : Prop :=
  ∃ message, reply = .refuse 0 message

/-- A writer that got the same bytes, refuses `a` more writes and otherwise answers like the first,
    and fails to flush `b` more times. -/
structure Writer.Hindered (a b : Nat) (w w' : Writer) : Prop where
  received : w'.received = w.received
  writes : Interspersed Reply.IsRefusal a (fun n => w.onWrite (w.writes + n))
    fun n => w'.onWrite (w'.writes + n)
  flushes : ∀ answer, w'.onFlush = some answer →
    Interspersed (·.isSome = true) b (fun _ => none) fun n => answer (w'.flushes + n)

/-- The same channels with `k` failures put in. -/
structure Channels.Hindered (k : Nat) (c c' : Channels) : Prop where
  parts : ∃ i a b, i + a + b = k ∧ Input.Hindered i c.input c'.input ∧
    Option.Rel (Writer.Hindered a b) c.output c'.output

namespace Channels.Hindered

variable {k : Nat} {c c' : Channels}

/-- Flushing the channels without failures makes no difference. -/
theorem flushed_iff : Hindered k c.flush.1 c' ↔ Hindered k c c' := by
  have same : c.flush.1.input = c.input ∧ ∀ a b,
      Option.Rel (Writer.Hindered a b) c.flush.1.output c'.output ↔
        Option.Rel (Writer.Hindered a b) c.output c'.output := by
    obtain ⟨input, output, log⟩ := c
    obtain ⟨input', output', log'⟩ := c'
    cases output with
    | none => exact ⟨rfl, fun _ _ => Iff.rfl⟩
    | some w =>
        cases flushable : w.onFlush with
        | none =>
            rw [Channels.flush_of_none flushable]
            exact ⟨rfl, fun _ _ => Iff.rfl⟩
        | some answer =>
            rw [Channels.flush_of_some flushable]
            -- only the number of flushes differs, and that of the first writer is not compared
            refine ⟨rfl, fun a b => ?_⟩
            constructor <;>
            · intro related
              cases related with
              | some hindered => exact .some ⟨hindered.received, hindered.writes, hindered.flushes⟩
  constructor
  · intro ⟨⟨i, a, b, total, input, output⟩⟩
    exact ⟨i, a, b, total, same.1 ▸ input, (same.2 a b).mp output⟩
  · intro ⟨⟨i, a, b, total, input, output⟩⟩
    exact ⟨i, a, b, total, same.1.symm ▸ input, (same.2 a b).mpr output⟩

theorem flush (hindered : Hindered k c c') :
    (c'.flush.2 ≠ none ∧ ∃ j < k, Hindered j c c'.flush.1) ∨
      (c'.flush.2 = none ∧ Hindered k c c'.flush.1) := by
  obtain ⟨⟨i, a, b, total, input, output⟩⟩ := hindered
  obtain ⟨input₁, output₁, log₁⟩ := c
  obtain ⟨input₂, output₂, log₂⟩ := c'
  cases output with
  | none => exact .inr ⟨rfl, ⟨i, a, b, total, input, .none⟩⟩
  | @some w w' writer =>
      obtain ⟨received, writes, flushes⟩ := writer
      cases flushable : w'.onFlush with
      | none =>
          rw [Channels.flush_of_none flushable]
          exact .inr ⟨rfl, ⟨i, a, b, total, input, .some ⟨received, writes, flushes⟩⟩⟩
      | some answer =>
          -- what is left of the answers decides how many failures there are still to come
          have left : ∀ {b}, Interspersed (·.isSome = true) b (fun _ => none)
              (fun n => answer (w'.flushes + (n + 1))) →
              Writer.Hindered a b w { w' with flushes := w'.flushes + 1 } := by
            intro b fewer
            refine ⟨received, writes, ?_⟩
            intro _ same
            cases flushable.symm.trans same
            simpa only [Nat.add_right_comm _ 1, Nat.add_assoc] using fewer
          rw [Channels.flush_of_some flushable]
          rcases (flushes answer flushable).front with ⟨fails, j, fewer, tail⟩ | ⟨fine, tail⟩
          · refine .inl ⟨?_, i + a + j, by omega, ⟨i, a, j, rfl, input, .some (left tail)⟩⟩
            rw [Nat.add_zero] at fails
            simpa using Option.isSome_iff_ne_none.mp fails
          · refine .inr ⟨?_, ⟨i, a, b, total, input, .some (left tail)⟩⟩
            rw [Nat.add_zero] at fine
            simp [fine]

theorem write (hindered : Hindered k c c') (byte : UInt8) (accepted : (c.write byte).2 = none) :
    ((c'.write byte).2 ≠ none ∧ ∃ j < k, Hindered j c (c'.write byte).1) ∨
      ((c'.write byte).2 = none ∧ Hindered k (c.write byte).1 (c'.write byte).1) := by
  obtain ⟨⟨i, a, b, total, input, output⟩⟩ := hindered
  obtain ⟨input₁, output₁, log₁⟩ := c
  obtain ⟨input₂, output₂, log₂⟩ := c'
  cases output with
  | none => exact .inr ⟨rfl, ⟨i, a, b, total, input, .none⟩⟩
  | @some w w' writer =>
      obtain ⟨received, writes, flushes⟩ := writer
      have reply : w.onWrite w.writes = .accept := by
        cases answer : w.onWrite w.writes with
        | accept => rfl
        | refuse => simp [Channels.write, Writer.write, Writer.settle, answer] at accepted
      rcases writes.front with ⟨⟨message, refused⟩, j, fewer, tail⟩ | ⟨same, tail⟩
      · rw [Nat.add_zero] at refused
        refine .inl ⟨by simp [Channels.write, Writer.write, Writer.settle, refused], i + j + b,
          by omega, ⟨i, j, b, rfl, input, .some ⟨?_, ?_, flushes⟩⟩⟩
        · simpa [Writer.write, Writer.settle, refused] using received
        · simpa only [Writer.write, Nat.add_right_comm _ 1, Nat.add_assoc] using tail
      · rw [Nat.add_zero, Nat.add_zero, reply] at same
        refine .inr ⟨by simp [Channels.write, Writer.write, Writer.settle, same],
          ⟨i, a, b, total, input, .some ⟨?_, ?_, flushes⟩⟩⟩
        · simp only [Writer.settle, same, reply, received]
        · simpa only [Writer.write, Nat.add_right_comm _ 1, Nat.add_assoc] using tail

theorem pullByte (hindered : Hindered k c c') :
    (∃ message, c'.pullByte.2 = .failed message ∧ ∃ j < k, Hindered j c c'.pullByte.1) ∨
      (c'.pullByte.2 = c.pullByte.2 ∧ ∃ j ≤ k, Hindered j c.pullByte.1 c'.pullByte.1) := by
  obtain ⟨⟨i, a, b, total, input, output⟩⟩ := hindered
  rcases input.pullByte with ⟨message, failed, j, fewer, left⟩ | ⟨same, j, fewer, left⟩
  · exact .inl ⟨message, failed, j + a + b, by omega, ⟨j, a, b, rfl, left, output⟩⟩
  · exact .inr ⟨same, j + a + b, by omega, ⟨j, a, b, rfl, left, output⟩⟩

end Channels.Hindered

end TapeLang
