import Mathlib.Data.List.Forall2
import TapeLang.Compile
import TapeLang.Proofs.Partners

/-! # What a source is read as

Scanning a source that is delivered without failure gives its command bytes, each
at its place. What is compiled from it depends on the commands alone; only the
positions of complaints tell two sources with the same commands apart.
-/

namespace TapeLang

/-- Complaints about two sources say the same about the same token. -/
def Complaint.Corresponds (source other : Bytes) (c c' : Complaint) : Prop :=
  c.text = c'.text ∧ ∃ (k : Nat) (t t' : Token), source.tokens[k]? = some t ∧
    other.tokens[k]? = some t' ∧ t.position = c.position ∧ t'.position = c'.position

/-! ## The same commands -/

namespace Block

theorem render_halted (b : Block) : b.halted.render = b.render := by
  induction b with
  | empty => rfl
  | command c rest ih =>
      have front : halted (.command c rest) = .command c rest.halted := rfl
      rw [front, render_command, render_command, ih]
  | loop body rest _ ih =>
      have front : halted (.loop body rest) = .loop body rest.halted := rfl
      rw [front, render_loop, render_loop, ih]

end Block

namespace Bytes

theorem tokensAt_map_byte {ts : List Token} {place : Nat → Position} {k : Nat}
    (stands : ∀ i t, ts[i]? = some t → place (k + i) = t.position) :
    tokensAt place k (ts.map (·.symbol.byte)) = ts := by
  induction ts generalizing k with
  | nil => rfl
  | cons t ts ih =>
      have here : place k = t.position := stands 0 t rfl
      have later : ∀ i t', ts[i]? = some t' → place (k + 1 + i) = t'.position := by
        intro i t' found
        rw [Nat.add_assoc, Nat.add_comm 1]
        exact stands (i + 1) t' found
      rw [List.map_cons, tokensAt_cons, Symbol.ofByte?_eq_some_iff.mpr rfl, ih later, here]
      rfl

theorem forall₂_complaintsAt {R : Complaint → Complaint → Prop} {place place' : Nat → Position}
    {source : Bytes} (alike : ∀ k < source.length, ∀ text, R ⟨place k, text⟩ ⟨place' k, text⟩) :
    List.Forall₂ R (complaintsAt place source) (complaintsAt place' source) := by
  have inside : ∀ p : Nat → Bool, ∀ k ∈ (List.range source.length).filter p, k < source.length := by
    intro p k member
    exact List.mem_range.mp (List.mem_of_mem_filter member)
  apply List.rel_append
  · simp only [List.forall₂_map_left_iff, List.forall₂_map_right_iff, List.forall₂_same]
    exact fun k member => alike k (inside _ k member) _
  · simp only [List.forall₂_map_left_iff, List.forall₂_map_right_iff, List.forall₂_same]
    exact fun k member => alike k (inside _ k member) _

end Bytes

namespace Nest

variable {ts ts' : List Token}

/-- Without complaints, only the commands count. -/
theorem ofTokens_eq_of_bytes (same : ts'.map (·.symbol.byte) = ts.map (·.symbol.byte))
    (quiet : (ofTokens ts).complaints = []) : ofTokens ts' = ofTokens ts := by
  obtain ⟨⟨body, written, halted⟩, rendered⟩ := (reads_ofTokens ts).complete quiet
  rw [halted, Block.render_halted] at rendered
  have here := foldr_prepend_render written start ts rendered.symm
  have there := foldr_prepend_render written start ts' (same.trans rendered.symm)
  exact there.trans here.symm

/-- The place of the token with the given number. -/
def placeIn (ts : List Token) (k : Nat) : Position :=
  (ts[k]?.map (·.position)).getD ⟨1, 1, 0⟩

theorem complaints_eq (ts : List Token) :
    (ofTokens ts).complaints = Bytes.complaintsAt (placeIn ts) (ts.map (·.symbol.byte)) := by
  have stands : ∀ i t, ts[i]? = some t → placeIn ts (0 + i) = t.position := by
    intro i t found
    simp [placeIn, found]
  rw [← complaints_ofTokens, Bytes.tokensAt_map_byte stands]

end Nest

section Compile

variable {chunks chunks' : List Chunk} {bytes bytes' : Bytes}

theorem balanced_iff_of_commands (same : bytes'.commands = bytes.commands) :
    bytes'.Balanced ↔ bytes.Balanced := by
  rw [← Bytes.balanced_commands_iff, same, Bytes.balanced_commands_iff]

theorem compile_unbalanced (how : Lowering) (name : String) (delivers : Delivers chunks bytes)
    (unbalanced : ¬ bytes.Balanced) : compile how name chunks =
      .error (.unbalanced name ((Nest.ofTokens bytes.tokens).complaints.take Complaint.limit)) := by
  rw [compile, Block.parse_unbalanced name delivers unbalanced]

theorem compile_balanced (how : Lowering) (name : String) (delivers : Delivers chunks bytes)
    (delivers' : Delivers chunks' bytes') (same : bytes'.commands = bytes.commands)
    (balanced : bytes.Balanced) : compile how name chunks' = compile how name chunks := by
  have balanced' : bytes'.Balanced := (balanced_iff_of_commands same).mpr balanced
  have quiet := Block.complaints_tokens_eq_nil_iff.mpr balanced
  rw [← Bytes.map_byte_tokens bytes, ← Bytes.map_byte_tokens bytes'] at same
  rw [compile, compile, Block.parse_balanced name delivers balanced,
    Block.parse_balanced name delivers' balanced', Nest.ofTokens_eq_of_bytes same quiet]

theorem complaints_correspond (same : bytes'.commands = bytes.commands) :
    List.Forall₂ (Complaint.Corresponds bytes bytes') (Nest.ofTokens bytes.tokens).complaints
      (Nest.ofTokens bytes'.tokens).complaints := by
  rw [Nest.complaints_eq, Nest.complaints_eq, Bytes.map_byte_tokens, Bytes.map_byte_tokens, same]
  apply Bytes.forall₂_complaintsAt
  intro k inside text
  have length : bytes.tokens.length = bytes.commands.length := by
    rw [← Bytes.map_byte_tokens, List.length_map]
  have length' : bytes'.tokens.length = bytes.commands.length := by
    rw [← same, ← Bytes.map_byte_tokens, List.length_map]
  have found := List.getElem?_eq_getElem (length.symm ▸ inside : k < bytes.tokens.length)
  have found' := List.getElem?_eq_getElem (length'.symm ▸ inside : k < bytes'.tokens.length)
  refine ⟨rfl, k, _, _, found, found', ?_, ?_⟩
  · simp [Nest.placeIn, found]
  · simp [Nest.placeIn, found']

end Compile

/-- Scanning finds exactly the commands of a source, each where its byte stands, and
    then the end for ever. Sources with the same commands compile alike if they are
    balanced, and else have the same complaints about the same commands. -/
theorem scanned_commands_determine_compile {chunks : List Chunk} {bytes : Bytes}
    (delivers : Delivers chunks bytes) :
    Token.ofGlyphs (Glyph.ofChunks chunks) = bytes.tokens ∧
    (∀ n, Glyph.scanned (Glyph.ofChunks chunks) n =
      bytes.tokens[n]?.elim (.ended (Glyph.endPosition (Glyph.ofChunks chunks))) .token) ∧
    Glyph.readFailure? (Glyph.ofChunks chunks) = none ∧
    ∀ (how : Lowering) (name : String) (chunks' : List Chunk) (bytes' : Bytes),
      Delivers chunks' bytes' → bytes'.commands = bytes.commands →
      (bytes.Balanced → compile how name chunks' = compile how name chunks) ∧
      (¬ bytes.Balanced → ∃ cs cs', compile how name chunks = .error (.unbalanced name cs) ∧
        compile how name chunks' = .error (.unbalanced name cs') ∧
        List.Forall₂ (Complaint.Corresponds bytes bytes') cs cs') := by
  refine ⟨Glyph.ofGlyphs_ofChunks delivers, Glyph.scanned_ofChunks delivers,
    Glyph.readFailure?_ofChunks delivers, ?_⟩
  intro how name chunks' bytes' delivers' same
  refine ⟨compile_balanced how name delivers delivers' same, ?_⟩
  intro unbalanced
  have unbalanced' : ¬ bytes'.Balanced := mt (balanced_iff_of_commands same).mp unbalanced
  refine ⟨_, _, compile_unbalanced how name delivers unbalanced,
    compile_unbalanced how name delivers' unbalanced', ?_⟩
  exact List.forall₂_take _ (complaints_correspond same)

/-- `é+` on a line, then a byte of no character and `[]` with a NUL, where `é` is
    delivered in two parts. -/
def Chunk.twoLines : List Chunk :=
  [⟨[0xC3], .more⟩, ⟨[0xA9, 43, 10, 0xFF], .more⟩, ⟨[91, 93, 0], .more⟩]

theorem scanned_commands_determine_compile_twoLines :
    Delivers Chunk.twoLines [0xC3, 0xA9, 43, 10, 0xFF, 91, 93, 0] ∧
    Delivers [⟨[43, 91, 93], .ended⟩] [43, 91, 93] ∧
    Token.ofGlyphs (Glyph.ofChunks Chunk.twoLines) =
      [⟨.inc, ⟨1, 2, 2⟩⟩, ⟨.loopStart, ⟨2, 2, 5⟩⟩, ⟨.loopEnd, ⟨2, 3, 6⟩⟩] ∧
    Glyph.scanned (Glyph.ofChunks Chunk.twoLines) 1 = .token ⟨.loopStart, ⟨2, 2, 5⟩⟩ ∧
    (∃ p, Glyph.scanned (Glyph.ofChunks Chunk.twoLines) 9 = .ended p) ∧
    Glyph.readFailure? (Glyph.ofChunks Chunk.twoLines) = none ∧
    compile {} "t" [⟨[43, 91, 93], .ended⟩] = compile {} "t" Chunk.twoLines ∧
    ∃ cs cs', compile {} "t" [⟨[93], .ended⟩] = .error (.unbalanced "t" cs) ∧
      compile {} "t" [⟨[10, 93], .ended⟩] = .error (.unbalanced "t" cs') ∧
      List.Forall₂ (Complaint.Corresponds [93] [10, 93]) cs cs' := by
  have delivers : Delivers Chunk.twoLines [0xC3, 0xA9, 43, 10, 0xFF, 91, 93, 0] :=
    .more (.more (.more .nil))
  have bare : Delivers [⟨[43, 91, 93], .ended⟩] [43, 91, 93] := .ended .nil
  have stray : Delivers [⟨[93], .ended⟩] [93] := .ended .nil
  obtain ⟨tokens, scanned, readable, compiled⟩ := scanned_commands_determine_compile delivers
  have places : Bytes.tokens [0xC3, 0xA9, 43, 10, 0xFF, 91, 93, 0] =
      [⟨.inc, ⟨1, 2, 2⟩⟩, ⟨.loopStart, ⟨2, 2, 5⟩⟩, ⟨.loopEnd, ⟨2, 3, 6⟩⟩] := by
    decide +kernel
  rw [places] at tokens scanned
  refine ⟨delivers, bare, tokens, scanned 1, ⟨_, scanned 9⟩, readable, ?_, ?_⟩
  · exact (compiled {} "t" _ _ bare (by decide)).1 (by decide)
  · have refused := (scanned_commands_determine_compile stray).2.2.2
    exact (refused {} "t" _ _ (.ended .nil) (by decide)).2 (by decide)

/-- A blank before an unexpected bracket changes where it is reported. -/
theorem compile_tells_comments_apart :
    Delivers [⟨[93], .more⟩] [93] ∧ Delivers [⟨[32, 93], .more⟩] [32, 93] ∧
    Bytes.commands [32, 93] = Bytes.commands [93] ∧
    compile {} "t" [⟨[32, 93], .more⟩] ≠ compile {} "t" [⟨[93], .more⟩] := by
  have bare : Delivers [⟨[93], .more⟩] [93] := .more .nil
  have blank : Delivers [⟨[32, 93], .more⟩] [32, 93] := .more .nil
  refine ⟨bare, blank, by decide, ?_⟩
  rw [compile_unbalanced {} "t" bare (by decide), compile_unbalanced {} "t" blank (by decide)]
  decide +kernel

end TapeLang
