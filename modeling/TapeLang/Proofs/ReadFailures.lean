import TapeLang.Compile
import TapeLang.Proofs.Scanning

/-! # Read calls that fail

Reading a source makes read calls as long as the buffer holds no whole character.
The message of a call that fails is reported along with the next character, beside
reports about stray bytes, which all begin with "invalid". So a failed read is told
apart from a stray byte by its message alone: the source counts as unreadable if
some message begins otherwise.
-/

namespace TapeLang

/-- The message of a read call that fails. -/
def Chunk.failure? (c : Chunk) : Option String :=
  match c.ending with
  | .failed message => some message
  | _ => none

namespace Glyph

/-- An upper bound on the steps that are left for chunks: bytes are put in the buffer
    and then decoded. -/
def steps (chunks : List Chunk) : Nat :=
  chunks.foldr (fun c n => 2 * c.data.length + 1 + n) 0

theorem steps_take {room : Nat} {chunks left : List Chunk} {c : Chunk} (some : 0 < room)
    (taken : Reader.take room chunks = (c, left)) :
    c.data.length + steps left < steps chunks ∨ c = ⟨[], .ended⟩ ∧ left = chunks := by
  cases chunks with
  | nil =>
      cases taken
      exact .inr ⟨rfl, rfl⟩
  | cons first rest =>
      left
      rw [Reader.take] at taken
      split at taken
      · cases taken
        simp only [steps, List.foldr_cons]
        omega
      · next nonempty =>
          cases taken
          have : room < first.data.length := by
            simpa [List.drop_eq_nil_iff] using nonempty
          simp only [steps, List.foldr_cons, List.length_take, List.length_drop]
          omega

/-- What the read calls return that are made for the source behind the buffered bytes. -/
def calls (buffered : Bytes) (chunks : List Chunk) : List Chunk :=
  if _short : Utf8.front buffered = .incomplete then
    match _taken : Reader.take (bufferSize - buffered.length) chunks with
    | (c, left) =>
      if _more : c.ending = .more then c :: calls (buffered ++ c.data) left
      else
        match _filled : buffered ++ c.data with
        | [] => [c]
        | b :: rest => c :: calls (decode {} [] b rest).2.2 left
  else
    match buffered with
    | [] => []
    | b :: rest => calls (decode {} [] b rest).2.2 chunks
termination_by buffered.length + steps chunks
decreasing_by
  · have few := Utf8.length_lt_of_front_incomplete _short
    rcases steps_take (by simp [bufferSize]; omega) _taken with less | ⟨rfl, _⟩
    · simp only [List.length_append]
      omega
    · cases _more
  · have few := Utf8.length_lt_of_front_incomplete _short
    have decoded := length_decode_le {} [] b rest
    have length := congrArg List.length _filled
    simp only [List.length_append, List.length_cons] at length
    rcases steps_take (by simp [bufferSize]; omega) _taken with less | ⟨rfl, rfl⟩
    · omega
    · simp only [List.length_nil] at length
      omega
  · have decoded := length_decode_le {} [] b rest
    simp only [List.length_cons]
    omega

/-- What the calls return that are made once the first character is decoded. -/
def callsBehind : Bytes → List Chunk → List Chunk
  | [], _ => []
  | b :: rest, chunks => calls (decode {} [] b rest).2.2 chunks

/-- The messages of the read calls that fail while a source is read, in order. -/
def failures (chunks : List Chunk) : List String :=
  (calls [] chunks).filterMap Chunk.failure?

/-! ## Calls and reports -/

variable {buffered buffered' : Bytes} {chunks left : List Chunk} {c : Chunk}

theorem calls_decided (decided : Utf8.front buffered ≠ .incomplete) :
    calls buffered chunks = callsBehind buffered chunks := by
  rw [calls, dif_neg decided]
  cases buffered <;> rfl

theorem calls_more (short : Utf8.front buffered = .incomplete)
    (taken : Reader.take (bufferSize - buffered.length) chunks = (c, left))
    (more : c.ending = .more) : calls buffered chunks = c :: calls (buffered ++ c.data) left := by
  rw [calls, dif_pos short]
  split
  next c' left' taken' =>
    cases taken.symm.trans taken'
    rw [dif_pos more]

theorem calls_last (short : Utf8.front buffered = .incomplete)
    (taken : Reader.take (bufferSize - buffered.length) chunks = (c, left))
    (last : c.ending ≠ .more) :
    calls buffered chunks = c :: callsBehind (buffered ++ c.data) left := by
  rw [calls, dif_pos short]
  split
  next c' left' taken' =>
    cases taken.symm.trans taken'
    rw [dif_neg last]
    split
    · next filled => rw [filled, callsBehind]
    · next filled => rw [filled, callsBehind]

/-- Refilling makes calls of which at most the last one fails. -/
theorem failures_refill (buffered : Bytes) (chunks : List Chunk) :
    (calls buffered chunks).filterMap Chunk.failure? = (refill buffered chunks).1.toList ++
      (callsBehind (refill buffered chunks).2.1 (refill buffered chunks).2.2).filterMap
        Chunk.failure? := by
  induction chunks generalizing buffered with
  | nil =>
      by_cases short : Utf8.front buffered = .incomplete
      · rw [calls_last short rfl (by simp), List.append_nil]
        rfl
      · rw [calls_decided short]
        rfl
  | cons c rest ih =>
      by_cases short : Utf8.front buffered = .incomplete
      · rw [refill, if_pos short]
        cases excess : c.data.drop (bufferSize - buffered.length) with
        | nil =>
            have taken : Reader.take (bufferSize - buffered.length) (c :: rest) = (c, rest) := by
              rw [Reader.take, excess]
            cases ending : c.ending with
            | more =>
                rw [calls_more short taken ending,
                  List.filterMap_cons_none (by rw [Chunk.failure?, ending]), ih]
            | ended =>
                rw [calls_last short taken (by simp [ending]),
                  List.filterMap_cons_none (by rw [Chunk.failure?, ending])]
                rfl
            | failed message =>
                rw [calls_last short taken (by simp [ending]),
                  List.filterMap_cons_some (by rw [Chunk.failure?, ending])]
                rfl
        | cons x xs =>
            -- the call fills the buffer, and then something is decided
            have taken : Reader.take (bufferSize - buffered.length) (c :: rest) =
                (⟨c.data.take (bufferSize - buffered.length), .more⟩,
                  ⟨x :: xs, c.ending⟩ :: rest) := by
              rw [Reader.take, excess]
            rw [calls_more short taken rfl, List.filterMap_cons_none rfl,
              calls_decided (front_of_full (by simp [excess]))]
            rfl
      · rw [refill, if_neg short, calls_decided short]
        rfl

theorem decode_again (t : Track) (reports : List Report) (b : UInt8) (rest : Bytes) :
    (decode t reports b rest).1.reports = reports ++ (decode t [] b rest).1.reports ∧
      (decode t reports b rest).2.2 = (decode {} [] b rest).2.2 := by
  unfold decode
  split <;> simp

/-- The text is not taken for one about a stray byte. -/
def tellsFailure (text : String) : Bool :=
  !"invalid".toList.isPrefixOf text.toList

theorem tellsFailure_iff {text : String} :
    tellsFailure text = true ↔ ¬ "invalid".toList <+: text.toList := by
  rw [tellsFailure, Bool.not_eq_true', ← Bool.not_eq_true, List.isPrefixOf_iff_prefix]

/-- The texts among the reports that are not about stray bytes. -/
def told (gs : List Glyph) : List String :=
  gs.flatMap fun g => (g.reports.map (·.text)).filter tellsFailure

theorem told_append (gs gs' : List Glyph) : told (gs ++ gs') = told gs ++ told gs' :=
  List.flatMap_append

theorem readFailure?_eq_head? (gs : List Glyph) : readFailure? gs = (told gs).head? := by
  have first : ∀ g : Glyph, ((g.reports.map (·.text)).filter tellsFailure).head? =
      (g.reports.find? fun r => tellsFailure r.text).map (·.text) := by
    intro g
    rw [List.head?_filter, List.find?_map]
    rfl
  simp only [told, List.head?_flatMap, first]
  rfl

theorem told_fetched (message : Option String) (p : Position) :
    (((message.map (Report.mk p)).toList.map (·.text)).filter tellsFailure) =
      message.toList.filter tellsFailure := by
  cases message <;> rfl

theorem told_decode (t : Track) (message : Option String) (b : UInt8) (rest : Bytes) :
    told [(decode t (message.map (Report.mk t.position)).toList b rest).1] =
      message.toList.filter tellsFailure := by
  have quiet : (((decode t [] b rest).1.reports.map (·.text)).filter tellsFailure) = [] := by
    rw [List.filter_eq_nil_iff]
    intro text member
    obtain ⟨r, reported, rfl⟩ := List.mem_map.mp member
    rw [tellsFailure, decode_readable t b rest r reported]
    decide
  rw [told, List.flatMap_cons, List.flatMap_nil, (decode_again ..).1, List.map_append,
    List.filter_append, told_fetched, quiet]
  simp

/-- Every call that fails is reported. -/
theorem told_gather (before : Array Glyph) (t : Track) (buffered : Bytes) (chunks : List Chunk) :
    told (gather before t buffered chunks).toList = told before.toList ++
      ((calls buffered chunks).filterMap Chunk.failure?).filter tellsFailure := by
  fun_induction gather before t buffered chunks with
  | case1 before t buffered chunks message left filled =>
      have last : told [⟨none, [], t.finish.position,
          (message.map (Report.mk t.position)).toList⟩] = message.toList.filter tellsFailure := by
        rw [told, List.flatMap_cons, List.flatMap_nil, List.append_nil, told_fetched]
      rw [failures_refill, filled, Array.toList_push, told_append, last, callsBehind,
        List.filterMap_nil, List.append_nil]
  | case2 before t buffered chunks message b rest left filled decoded =>
      rename_i ih
      have behind : decoded.2.2 = (decode {} [] b rest).2.2 := (decode_again ..).2
      rw [ih, failures_refill buffered, filled, Array.toList_push, told_append, told_decode,
        callsBehind, List.filter_append, behind, List.append_assoc]

/-- A source counts as unreadable by the first message that is not about stray bytes. -/
theorem readFailure?_ofChunks_eq (chunks : List Chunk) :
    readFailure? (ofChunks chunks) = (failures chunks).find? tellsFailure := by
  rw [readFailure?_eq_head?, ofChunks, told_gather, ← List.head?_filter]
  rfl

end Glyph

namespace Block

variable {chunks : List Chunk}

theorem parse_unreadable (name : String) {m : String}
    (first : (Glyph.failures chunks).find? Glyph.tellsFailure = some m) :
    parse name chunks = .error (.unreadable ((Failure.ofCause m).within name)) := by
  rw [parse, Glyph.readFailure?_ofChunks_eq, first]

theorem exists_unreadable_iff (name : String) :
    (∃ f, parse name chunks = .error (.unreadable f)) ↔
      ((Glyph.failures chunks).find? Glyph.tellsFailure).isSome := by
  cases first : (Glyph.failures chunks).find? Glyph.tellsFailure with
  | some m => simp [parse_unreadable name first]
  | none =>
      -- what is refused then is refused for its brackets
      have readable : ∀ f, parse name chunks ≠ .error (.unreadable f) := by
        intro f unreadable
        rw [parse, Glyph.readFailure?_ofChunks_eq, first] at unreadable
        dsimp only at unreadable
        split at unreadable <;> cases unreadable
      simp [readable]

end Block

/-- If the first read call that fails has a message that does not begin with
    "invalid", it is in the error that parsing and compiling give. A source is
    unreadable exactly if some call fails with such a message. -/
theorem read_failures_reported (how : Lowering) (name : String) (chunks : List Chunk) :
    (∀ m, (Glyph.failures chunks).head? = some m → ¬ "invalid".toList <+: m.toList →
      ∃ e, Block.parse name chunks = .error e ∧ compile how name chunks = .error e ∧
        e.message = Bytes.ofString (name ++ ": " ++ m)) ∧
    ((∃ f, Block.parse name chunks = .error (.unreadable f)) ↔
      ∃ m ∈ Glyph.failures chunks, ¬ "invalid".toList <+: m.toList) := by
  constructor
  · intro m first loud
    obtain ⟨later, messages⟩ := List.head?_eq_some_iff.mp first
    have found : (Glyph.failures chunks).find? Glyph.tellsFailure = some m := by
      rw [messages]
      exact List.find?_cons_of_pos (Glyph.tellsFailure_iff.mpr loud)
    have refused := Block.parse_unreadable name found
    refine ⟨_, refused, ?_, rfl⟩
    rw [compile, refused]
  · rw [Block.exists_unreadable_iff, List.find?_isSome]
    simp only [Glyph.tellsFailure_iff]

/-- `+[`, and a read that fails in the middle of a character. -/
def Chunk.cutOff : List Chunk :=
  [⟨[43], .more⟩, ⟨[91, 0xC3], .failed "disk on fire"⟩, ⟨[93], .ended⟩]

theorem read_failures_reported_cutOff :
    Glyph.failures Chunk.cutOff = ["disk on fire"] ∧
    ∃ e, Block.parse "t" Chunk.cutOff = .error e ∧ compile {} "t" Chunk.cutOff = .error e ∧
      e.message = Bytes.ofString "t: disk on fire" := by
  have failures : Glyph.failures Chunk.cutOff = ["disk on fire"] := by decide +kernel
  refine ⟨failures, (read_failures_reported {} "t" Chunk.cutOff).1 "disk on fire" ?_ (by decide)⟩
  rw [failures]
  rfl

/-- A read that fails with a message like those about stray bytes passes for the end
    of the source. -/
theorem parse_takes_failure_for_end :
    Glyph.failures [⟨[43], .failed "invalid argument"⟩] = ["invalid argument"] ∧
    Block.parse "t" [⟨[43], .failed "invalid argument"⟩] =
      .ok (.command .inc (.command .halt .empty)) ∧
    ∃ lowered, compile {} "t" [⟨[43], .failed "invalid argument"⟩] = .ok lowered := by
  have failures : Glyph.failures [⟨[43], .failed "invalid argument"⟩] = ["invalid argument"] := by
    decide +kernel
  have tokens : Token.ofGlyphs (Glyph.ofChunks [⟨[43], .failed "invalid argument"⟩]) =
      [⟨.inc, ⟨1, 1, 0⟩⟩] := by
    decide +kernel
  have parsed : Block.parse "t" [⟨[43], .failed "invalid argument"⟩] =
      .ok (.command .inc (.command .halt .empty)) := by
    rw [Block.parse, Glyph.readFailure?_ofChunks_eq, failures, tokens]
    rfl
  refine ⟨failures, parsed, ?_⟩
  rw [compile, parsed]
  exact ⟨_, rfl⟩

end TapeLang
