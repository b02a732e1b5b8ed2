import TapeLang.Proofs.Brackets
import TapeLang.Proofs.Nesting
import TapeLang.Proofs.Scanning

/-! # Parsing accepts the balanced sources

Whatever has been read from the right end of a source, the blocks that are open
spell it, and as many brackets wait for a partner as closing brackets run ahead.
So a source has a block exactly if it is balanced, and the block is the source.
The source of a block that is written in commands and loops gives it back.
-/

namespace TapeLang

/-- A source can hold the command. -/
def Command.isWritten : Command → Bool
  | .right | .left | .inc | .dec | .output | .input => true
  | .halt | .unknown _ => false

namespace Block

/-- One block, then another. -/
def append : Block → Block → Block
  | .empty, later => later
  | .command c rest, later => .command c (rest.append later)
  | .loop body rest, later => .loop body (rest.append later)

/-- A block, then a halt. -/
def halted (b : Block) : Block :=
  b.append (.command .halt .empty)

/-- The block has only loops and commands that a source can hold. -/
inductive Written : Block → Prop where
  | empty : Written .empty
  | command {c : Command} {rest : Block} (isWritten : c.isWritten = true) (later : Written rest) :
      Written (.command c rest)
  | loop {body rest : Block} (inside : Written body) (later : Written rest) :
      Written (.loop body rest)

@[simp] theorem append_empty (b : Block) : b.append .empty = b := by
  induction b with
  | empty => rfl
  | command c rest ih => rw [append, ih]
  | loop body rest _ ih => rw [append, ih]

end Block

namespace Symbol

variable {s : Symbol} {c : Command}

theorem byte_inj {s s' : Symbol} (same : s.byte = s'.byte) : s = s' := by
  have back : ∀ s : Symbol, ofChar? (Char.ofNat s.byte.toNat) = some s := by
    intro s
    cases s <;> decide
  apply Option.some.inj
  rw [← back s, same, back s']

theorem exists_command? (isWritten : c.isWritten = true) : ∃ s : Symbol, s.command? = some c := by
  cases c with
  | right => exact ⟨.right, rfl⟩
  | left => exact ⟨.left, rfl⟩
  | inc => exact ⟨.inc, rfl⟩
  | dec => exact ⟨.dec, rfl⟩
  | output => exact ⟨.output, rfl⟩
  | input => exact ⟨.input, rfl⟩
  | halt | unknown => cases isWritten

theorem isWritten_of_command? (named : s.command? = some c) : c.isWritten = true := by
  cases s <;> cases named <;> rfl

theorem source_of_command? (named : s.command? = some c) : c.source = [s.byte] := by
  cases s <;> cases named <;> decide

theorem ne_brackets_of_command? (named : s.command? = some c) : s.byte ≠ 91 ∧ s.byte ≠ 93 := by
  cases s <;> cases named <;> decide

end Symbol

namespace Nest

/-- The innermost block and those behind the closing brackets: the last one halts,
    the others are written. -/
def Halting : Block → List (Position × Block) → Prop
  | b, [] => ∃ body : Block, body.Written ∧ b = body.halted
  | b, (_, next) :: closers => b.Written ∧ Halting next closers

/-- What is behind the innermost block. -/
def behind (closers : List (Position × Block)) : Bytes :=
  closers.flatMap fun closer => 93 :: closer.2.render

/-- The nest was read from this source. -/
structure Reads (n : Nest) (source : Bytes) : Prop where
  unopened : n.closers.length = source.surplus 93 91
  unclosed : n.openers.length + source.count 93 = n.closers.length + source.count 91
  halting : Halting n.current n.closers
  spelled : n.openers = [] → n.current.render ++ behind n.closers = source

variable {n : Nest} {source : Bytes} {t : Token}

theorem Halting.put {b : Block} {closers : List (Position × Block)} {put : Block → Block}
    (halting : Halting b closers) (written : ∀ b : Block, b.Written → (put b).Written)
    (commutes : ∀ b : Block, put b.halted = (put b).halted) : Halting (put b) closers := by
  cases closers with
  | nil =>
      obtain ⟨body, isWritten, rfl⟩ := halting
      exact ⟨put body, written body isWritten, commutes body⟩
  | cons closer closers => exact ⟨written b halting.1, halting.2⟩

theorem reads_command {c : Command} (reads : n.Reads source)
    (named : t.symbol.command? = some c) :
    (n.command c).Reads (t.symbol.byte :: source) := by
  obtain ⟨unopened, unclosed, halting, spelled⟩ := reads
  obtain ⟨notOpening, notClosing⟩ := Symbol.ne_brackets_of_command? named
  refine ⟨?_, ?_, ?_, ?_⟩
  · rw [Bytes.surplus_cons_of_ne notClosing notOpening]
    exact unopened
  · rw [List.count_cons_of_ne notOpening, List.count_cons_of_ne notClosing]
    exact unclosed
  · exact halting.put (fun _ => .command (Symbol.isWritten_of_command? named)) fun _ => rfl
  · intro closed
    rw [command, Block.render_command, Symbol.source_of_command? named, ← spelled closed]
    simp

theorem reads_close (reads : n.Reads source) (p : Position) :
    Reads { n with current := .empty, closers := (p, n.current) :: n.closers } (93 :: source) := by
  obtain ⟨unopened, unclosed, halting, spelled⟩ := reads
  refine ⟨?_, ?_, ⟨.empty, halting⟩, ?_⟩
  · rw [Bytes.surplus_cons_self (by decide), List.length_cons, unopened]
  · simp
    omega
  · intro closed
    rw [← spelled closed]
    simp [behind]

theorem reads_open {p : Position} {rest : Block} {closers : List (Position × Block)}
    (reads : n.Reads source) (waiting : n.closers = (p, rest) :: closers) :
    Reads { n with current := .loop n.current rest, closers } (91 :: source) := by
  obtain ⟨unopened, unclosed, halting, spelled⟩ := reads
  rw [waiting] at unopened unclosed halting spelled
  obtain ⟨written, halting⟩ := halting
  rw [List.length_cons] at unopened unclosed
  refine ⟨?_, ?_, halting.put (fun _ => .loop written) fun _ => rfl, ?_⟩
  · rw [Bytes.surplus_cons_other (by decide)]
    simp
    omega
  · simp
    omega
  · intro closed
    rw [← spelled closed]
    simp [behind]

theorem reads_open_alone (reads : n.Reads source) (p : Position) (alone : n.closers = []) :
    Reads { n with openers := p :: n.openers } (91 :: source) := by
  obtain ⟨unopened, unclosed, halting, _⟩ := reads
  rw [alone, List.length_nil] at unopened
  refine ⟨?_, ?_, halting, ?_⟩
  · rw [Bytes.surplus_cons_other (by decide), ← unopened]
    simp [alone]
  · simp
    omega
  · intro closed
    cases closed

theorem reads_prepend (reads : n.Reads source) (t : Token) :
    (n.prepend t).Reads (t.symbol.byte :: source) := by
  cases symbol : t.symbol with
  | loopEnd =>
      rw [prepend_close symbol]
      exact reads_close reads t.position
  | loopStart =>
      rcases waiting : n.closers with _ | ⟨⟨p, rest⟩, closers⟩
      · rw [prepend_open_alone symbol waiting]
        exact reads_open_alone reads t.position waiting
      · rw [prepend_open symbol waiting]
        exact reads_open reads waiting
  | right | left | inc | dec | output | input =>
      rw [← symbol]
      have named : t.symbol.command? = some _ := congrArg Symbol.command? symbol
      rw [prepend_command named]
      exact reads_command reads named

/-- What is read from tokens was read from their source. -/
theorem reads_ofTokens (ts : List Token) :
    (ofTokens ts).Reads (ts.map (·.symbol.byte)) := by
  induction ts with
  | nil => exact ⟨rfl, rfl, ⟨.empty, .empty, rfl⟩, fun _ => rfl⟩
  | cons t ts ih => exact reads_prepend ih t

theorem complaints_eq_nil_iff (reads : n.Reads source) :
    n.complaints = [] ↔ source.Balanced := by
  obtain ⟨unopened, unclosed, _, _⟩ := reads
  have none_unopened : n.closers.length = 0 ↔
      ∀ start ∈ source.inits, start.count 93 ≤ start.count 91 := by
    rw [unopened, ← Nat.le_zero, Bytes.surplus_le_iff]
    rfl
  rw [Bytes.Balanced, ← none_unopened]
  rw [complaints, List.append_eq_nil_iff, List.map_eq_nil_iff, List.map_eq_nil_iff,
    ← List.length_eq_zero_iff (l := n.closers), ← List.length_eq_zero_iff (l := n.openers)]
  omega

/-- Without complaints, one block is read and it is the source. -/
theorem Reads.complete (reads : n.Reads source) (quiet : n.complaints = []) :
    (∃ body : Block, body.Written ∧ n.current = body.halted) ∧ n.current.render = source := by
  obtain ⟨current, closers, openers⟩ := n
  rw [complaints, List.append_eq_nil_iff, List.map_eq_nil_iff, List.map_eq_nil_iff] at quiet
  obtain ⟨rfl, rfl⟩ := quiet
  refine ⟨reads.halting, ?_⟩
  simpa [behind] using reads.spelled rfl

/-- The tokens of a written block put it in front. -/
theorem foldr_prepend_render {b : Block} (written : b.Written) (n : Nest) (ts : List Token)
    (same : ts.map (·.symbol.byte) = b.render) :
    ts.foldr prepend n = { n with current := b.append n.current } := by
  induction written generalizing n ts with
  | empty =>
      cases List.map_eq_nil_iff.mp same
      rfl
  | @command c rest isWritten later ih =>
      obtain ⟨s, named⟩ := Symbol.exists_command? isWritten
      rw [Block.render_command, Symbol.source_of_command? named] at same
      obtain ⟨t, ts, rfl, byte, same⟩ := List.map_eq_cons_iff.mp same
      rw [List.foldr_cons, ih n ts same, prepend_command (Symbol.byte_inj byte ▸ named)]
      rfl
  | @loop body rest inside later ihInside ihLater =>
      rw [Block.render_loop] at same
      obtain ⟨o, ts, rfl, opens, same⟩ := List.map_eq_cons_iff.mp same
      obtain ⟨front, ts, rfl, first, same⟩ := List.map_eq_append_iff.mp same
      obtain ⟨e, back, rfl, closes, last⟩ := List.map_eq_cons_iff.mp same
      -- tokens are read from the right: the rest, the closing bracket, the body, the opening one
      have opens : o.symbol = .loopStart := Symbol.byte_inj opens
      have closes : e.symbol = .loopEnd := Symbol.byte_inj closes
      rw [List.foldr_cons, List.foldr_append, List.foldr_cons, ihLater n back last,
        prepend_close closes, ihInside _ front first, prepend_open opens rfl]
      simp [Block.append]

end Nest

namespace Block

variable {chunks : List Chunk} {bytes : Bytes}

theorem commands_render {b : Block} (written : b.Written) : b.render.commands = b.render := by
  induction written with
  | empty => rfl
  | command isWritten later ih =>
      obtain ⟨s, named⟩ := Symbol.exists_command? isWritten
      have kept : Bytes.commands [s.byte] = [s.byte] := by cases s <;> decide
      rw [render_command, Symbol.source_of_command? named, Bytes.commands_append, kept, ih]
  | @loop body rest inside later ihInside ihLater =>
      have brackets : Bytes.commands [91] = [91] ∧ Bytes.commands [93] = [93] := by decide
      have split : render (.loop body rest) = [91] ++ (body.render ++ ([93] ++ rest.render)) :=
        render_loop body rest
      simp only [split, Bytes.commands_append, brackets.1, brackets.2, ihInside, ihLater]

/-- A source is parsed by its commands, however it is delivered. -/
theorem parse_delivered (delivers : Delivers chunks bytes) :
    ∃ ts : List Token, ts.map (·.symbol.byte) = bytes.commands ∧
      ∀ name b, parse name chunks = .ok b ↔
        (Nest.ofTokens ts).complaints = [] ∧ (Nest.ofTokens ts).current = b := by
  refine ⟨_, Glyph.bytes_ofGlyphs_spell {} bytes, ?_⟩
  intro name b
  rw [parse, Glyph.ofChunks_eq_spell delivers, Glyph.readFailure?_spell]
  dsimp only
  rw [Stack.complaints_read]
  split
  · next quiet => simp [quiet, Stack.block_read quiet]
  · next complaints loud =>
      constructor
      · intro ok
        cases ok
      · rintro ⟨quiet, _⟩
        exact absurd quiet loud

end Block

/-- Parsing accepts exactly the balanced sources. The block it gives is the source
    with a halt at its end, and the source of a block gives it back. -/
theorem Block.parse_ok_iff_balanced (name : String) {chunks : List Chunk} {bytes : Bytes}
    (delivers : Delivers chunks bytes) :
    ((∃ b, parse name chunks = .ok b) ↔ bytes.commands.Balanced) ∧
    (∀ b, parse name chunks = .ok b → (∃ body : Block, body.Written ∧ b = body.halted) ∧
      b.render = bytes.commands ∧ b.depth = bytes.commands.nesting) ∧
    ∀ body : Block, body.Written → bytes = body.render → parse name chunks = .ok body.halted := by
  obtain ⟨ts, same, parsed⟩ := parse_delivered delivers
  have reads := Nest.reads_ofTokens ts
  rw [same] at reads
  refine ⟨?_, ?_, ?_⟩
  · rw [← Nest.complaints_eq_nil_iff reads]
    simp [parsed]
  · intro b ok
    obtain ⟨quiet, rfl⟩ := (parsed name b).mp ok
    obtain ⟨halted, rendered⟩ := reads.complete quiet
    refine ⟨halted, rendered, ?_⟩
    rw [← rendered, nesting_render]
  · rintro body written rfl
    rw [commands_render written] at same
    have folded : Nest.ofTokens ts = { Nest.start with current := body.halted } :=
      Nest.foldr_prepend_render written Nest.start ts same
    rw [parsed, folded]
    exact ⟨rfl, rfl⟩

/-- `+[é-` and a byte of no character, then `]x`, where `é` is delivered in two parts. -/
def Chunk.broken : List Chunk :=
  [⟨[43, 91, 0xC3], .more⟩, ⟨[0xA9, 45], .more⟩, ⟨[0xFF, 93, 120], .ended⟩]

theorem Block.parse_ok_iff_balanced_broken : ∃ body : Block,
    Delivers Chunk.broken [43, 91, 0xC3, 0xA9, 45, 0xFF, 93, 120] ∧
    parse "a" Chunk.broken = .ok body.halted ∧ body.halted.render = [43, 91, 45, 93] ∧
    body.halted.depth = 1 ∧ body.Written ∧ Delivers [⟨body.render, .ended⟩] body.render ∧
    parse "" [⟨body.render, .ended⟩] = .ok body.halted := by
  have delivers : Delivers Chunk.broken [43, 91, 0xC3, 0xA9, 45, 0xFF, 93, 120] :=
    .more (.more (.ended .nil))
  obtain ⟨accepted, given, _⟩ := parse_ok_iff_balanced "a" delivers
  obtain ⟨b, ok⟩ := accepted.mpr (by decide)
  obtain ⟨⟨body, written, rfl⟩, rendered, deep⟩ := given b ok
  have again : Delivers [⟨body.render, .ended⟩] body.render := .ended .nil
  have back := (parse_ok_iff_balanced "" again).2.2 body written rfl
  exact ⟨body, delivers, ok, rendered, deep.trans (by decide), written, again, back⟩

end TapeLang
