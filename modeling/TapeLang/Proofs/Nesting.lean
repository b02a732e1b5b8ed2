import TapeLang.Block.Parse

/-! # Reading tokens from the right

The parser reads tokens from the left and keeps a stack of the loops that are open. What
holds of a source is easier to see from its right end: a closing bracket puts the block
behind it aside, and the opening bracket that meets it makes a loop of what was read in
between. Both ways find the same brackets without partner, and the same block if there
are none.
-/

namespace TapeLang

/-- What has been read from the right end of a source. -/
structure Nest where
  /-- The innermost block. -/
  current : Block
  /-- Closing brackets without partner so far, and the block after each, from
      the left. -/
  closers : List (Position × Block)
  /-- Opening brackets without partner, from the left. -/
  openers : List Position
  deriving Repr, DecidableEq

namespace Nest

/-- The right end of a source: a program ends by halting. -/
def start : Nest :=
  ⟨.command .halt .empty, [], []⟩

/-- Put a command in front. -/
def command (c : Command) (n : Nest) : Nest :=
  { n with current := .command c n.current }

/-- Put a token in front. -/
def prepend (t : Token) (n : Nest) : Nest :=
  match t.symbol with
  | .right => n.command .right
  | .left => n.command .left
  | .inc => n.command .inc
  | .dec => n.command .dec
  | .output => n.command .output
  | .input => n.command .input
  | .loopEnd => { n with current := .empty, closers := (t.position, n.current) :: n.closers }
  | .loopStart =>
    match n.closers with
    | (_, rest) :: closers => { n with current := .loop n.current rest, closers }
    | [] => { n with openers := t.position :: n.openers }

/-- What is read from all tokens. -/
def ofTokens (ts : List Token) : Nest :=
  ts.foldr prepend start

/-- Complaints about the brackets without partner: first the closing, then the
    opening ones. -/
def complaints (n : Nest) : List Complaint :=
  n.closers.map (fun c => ⟨c.1, Bytes.ofString "unexpected ]"⟩) ++
    n.openers.map (fun p => ⟨p, Bytes.ofString "unterminated loop"⟩)

end Nest

/-- The command of a symbol that is no bracket. -/
def Symbol.command? : Symbol → Option Command
  | .right => some .right
  | .left => some .left
  | .inc => some .inc
  | .dec => some .dec
  | .output => some .output
  | .input => some .input
  | .loopStart | .loopEnd => none

namespace Nest

variable {n : Nest} {t : Token}

theorem prepend_command {c : Command} (named : t.symbol.command? = some c) :
    n.prepend t = n.command c := by
  obtain ⟨symbol, position⟩ := t
  cases symbol <;> cases named <;> rfl

theorem prepend_close (closes : t.symbol = .loopEnd) : n.prepend t =
    { n with current := .empty, closers := (t.position, n.current) :: n.closers } := by
  rw [prepend, closes]

theorem prepend_open {p : Position} {rest : Block} {closers : List (Position × Block)}
    (opens : t.symbol = .loopStart) (waiting : n.closers = (p, rest) :: closers) :
    n.prepend t = { n with current := .loop n.current rest, closers } := by
  simp only [prepend, opens, waiting]

theorem prepend_open_alone (opens : t.symbol = .loopStart) (alone : n.closers = []) :
    n.prepend t = { n with openers := t.position :: n.openers } := by
  simp only [prepend, opens, alone]

theorem complaints_eq_nil (n : Nest) : n.complaints = [] ↔ n.closers = [] ∧ n.openers = [] := by
  simp [complaints]

end Nest

namespace Stack

variable {s : Stack} {n : Nest} {t : Token}

theorem push_command {c : Command} (named : t.symbol.command? = some c) :
    s.push t = s.command c := by
  obtain ⟨symbol, position⟩ := t
  cases symbol <;> cases named <;> rfl

theorem push_open (opens : t.symbol = .loopStart) :
    s.push t = { s with top := [], below := (t.position, s.top) :: s.below } := by
  rw [push, opens]

theorem push_close {p : Position} {before : List Node} {below : List (Position × List Node)}
    (closes : t.symbol = .loopEnd) (inside : s.below = (p, before) :: below) :
    s.push t = { s with top := .loop (Node.build s.top .empty) :: before, below } := by
  simp only [push, closes, inside]

theorem push_close_alone (closes : t.symbol = .loopEnd) (outside : s.below = []) :
    s.push t = { s with unexpected := t.position :: s.unexpected } := by
  simp only [push, closes, outside]

/-! ## Brackets without partner -/

/-- The complaints about a stack and what was read from the right of it: closing brackets of the
    one meet opening brackets of the other, the innermost first. -/
def complaintsWith (s : Stack) (n : Nest) : List Complaint :=
  (s.unexpected.reverse ++ (n.closers.drop s.below.length).map (·.1)).map
      (fun p => ⟨p, Bytes.ofString "unexpected ]"⟩) ++
    ((s.below.drop n.closers.length).reverse.map (·.1) ++ n.openers).map
      (fun p => ⟨p, Bytes.ofString "unterminated loop"⟩)

/-- It makes no difference from which side a token is read. -/
theorem complaintsWith_push (s : Stack) (t : Token) (n : Nest) :
    (s.push t).complaintsWith n = s.complaintsWith (n.prepend t) := by
  cases symbol : t.symbol with
  | loopStart =>
      rw [push_open symbol]
      rcases waiting : n.closers with _ | ⟨⟨p, rest⟩, closers⟩
      · rw [Nest.prepend_open_alone symbol waiting]
        simp [complaintsWith, waiting]
      · rw [Nest.prepend_open symbol waiting]
        simp [complaintsWith, waiting]
  | loopEnd =>
      rw [Nest.prepend_close symbol]
      rcases inside : s.below with _ | ⟨⟨p, before⟩, below⟩
      · rw [push_close_alone symbol inside]
        simp [complaintsWith, inside]
      · rw [push_close symbol inside]
        simp [complaintsWith, inside]
  | right | left | inc | dec | output | input =>
      have named : t.symbol.command? = some _ := congrArg Symbol.command? symbol
      rw [push_command named, Nest.prepend_command named]
      rfl

theorem complaints_foldl (s : Stack) (ts : List Token) :
    (ts.foldl push s).complaints = s.complaintsWith (Nest.ofTokens ts) := by
  induction ts generalizing s with
  | nil => simp [complaints, complaintsWith, Nest.ofTokens, Nest.start]
  | cons t ts ih =>
      rw [List.foldl_cons, ih, complaintsWith_push]
      rfl

/-! ## The block -/

/-- Every bracket that waits on one side has its partner on the other. -/
def Meets (s : Stack) (n : Nest) : Prop :=
  s.below.length = n.closers.length ∧ n.openers = []

/-- The block that nodes on a stack make with blocks that were read from the right of it. -/
def joined : List Node → List (Position × List Node) → Block → List (Position × Block) → Block
  | top, (_, before) :: below, current, (_, rest) :: closers =>
    joined (.loop (Node.build top current) :: before) below rest closers
  | top, _, current, _ => Node.build top current

theorem joined_cons (node : Node) (top : List Node) (below : List (Position × List Node))
    (current : Block) (closers : List (Position × Block)) :
    joined (node :: top) below current closers = joined top below (node.onto current) closers := by
  cases below with
  | nil => cases closers <;> rfl
  | cons => cases closers <;> rfl

/-- A token read from the left meets what it would have met from the right. -/
theorem Meets.push (meets : s.Meets (n.prepend t)) : (s.push t).Meets n ∧
    joined (s.push t).top (s.push t).below n.current n.closers =
      joined s.top s.below (n.prepend t).current (n.prepend t).closers := by
  obtain ⟨lengths, closed⟩ := meets
  cases symbol : t.symbol with
  | loopStart =>
      rw [push_open symbol]
      rcases waiting : n.closers with _ | ⟨⟨p, rest⟩, closers⟩
      · rw [Nest.prepend_open_alone symbol waiting] at closed
        cases closed
      · rw [Nest.prepend_open symbol waiting] at lengths closed ⊢
        refine ⟨⟨?_, closed⟩, joined_cons ..⟩
        rw [waiting, List.length_cons, List.length_cons, lengths]
  | loopEnd =>
      rw [Nest.prepend_close symbol] at lengths closed ⊢
      rcases inside : s.below with _ | ⟨⟨p, before⟩, below⟩
      · rw [inside] at lengths
        cases lengths
      · rw [push_close symbol inside]
        rw [inside, List.length_cons, List.length_cons] at lengths
        exact ⟨⟨Nat.succ.inj lengths, closed⟩, rfl⟩
  | right | left | inc | dec | output | input =>
      have named : t.symbol.command? = some _ := congrArg Symbol.command? symbol
      rw [Nest.prepend_command named] at lengths closed ⊢
      rw [push_command named]
      exact ⟨⟨lengths, closed⟩, joined_cons ..⟩

theorem Meets.block_foldl {ts : List Token} (meets : s.Meets (Nest.ofTokens ts)) :
    (ts.foldl Stack.push s).block =
      joined s.top s.below (Nest.ofTokens ts).current (Nest.ofTokens ts).closers := by
  induction ts generalizing s with
  | nil =>
      obtain ⟨top, below, unexpected⟩ := s
      obtain rfl := List.eq_nil_of_length_eq_zero meets.1
      rfl
  | cons t ts ih =>
      obtain ⟨later, same⟩ := meets.push
      rw [List.foldl_cons, ih later]
      exact same

/-! ## Whole sources -/

theorem complaints_read (ts : List Token) :
    (ts.foldl push {}).complaints = (Nest.ofTokens ts).complaints := by
  rw [complaints_foldl, complaintsWith, Nest.complaints]
  simp

theorem block_read {ts : List Token} (quiet : (Nest.ofTokens ts).complaints = []) :
    (ts.foldl push {}).block = (Nest.ofTokens ts).current := by
  obtain ⟨closers, openers⟩ := (Nest.complaints_eq_nil _).mp quiet
  have meets : Meets {} (Nest.ofTokens ts) := ⟨by rw [closers]; rfl, openers⟩
  rw [meets.block_foldl, closers]
  rfl

end Stack

end TapeLang
