import TapeLang.Block.Token
import TapeLang.Stream.Failure

/-! # From tokens to blocks

Tokens are read from the left. An opening bracket puts aside what was read before
it; the closing bracket that meets it makes a loop of what was read in between.
Brackets that meet no partner are complained about.
-/

namespace TapeLang

/-- Why a source has no block. -/
inductive SourceError where
  /-- The source could not be read. -/
  | unreadable (failure : Failure)
  /-- Brackets of the named source have no partner. -/
  | unbalanced (name : String) (complaints : List Complaint)
  /-- The block cannot be turned into a program. -/
  | unfit (failure : Failure)
  deriving Repr, DecidableEq

/-- The text of a source error. -/
def SourceError.message : SourceError → Bytes
  | .unreadable failure => Bytes.ofString failure.message
  | .unbalanced name complaints => Complaint.renderAll name complaints
  | .unfit failure => Bytes.ofString failure.message

/-- A command or a whole loop. -/
inductive Node where
  | command (c : Command)
  | loop (body : Block)
  deriving Repr, DecidableEq

namespace Node

/-- Put a node in front of a block. -/
def onto (rest : Block) : Node → Block
  | .command c => .command c rest
  | .loop body => .loop body rest

/-- Put nodes in front of a block. The last of them is given first. -/
def build (nodes : List Node) (rest : Block) : Block :=
  nodes.foldl onto rest

end Node

/-- What has been read from the left end of a source. -/
structure Stack where
  /-- The nodes of the innermost loop that is open, the last first. -/
  top : List Node := []
  /-- The opening brackets without partner so far, from the right, and the nodes
      before each in the loop around it, the last first. -/
  below : List (Position × List Node) := []
  /-- The closing brackets without partner, from the right. -/
  unexpected : List Position := []

namespace Stack

/-- Put a command behind what was read. -/
def command (c : Command) (s : Stack) : Stack :=
  { s with top := .command c :: s.top }

/-- Read one more token. -/
def push (s : Stack) (t : Token) : Stack :=
  match t.symbol with
  | .right => s.command .right
  | .left => s.command .left
  | .inc => s.command .inc
  | .dec => s.command .dec
  | .output => s.command .output
  | .input => s.command .input
  | .loopStart => { s with top := [], below := (t.position, s.top) :: s.below }
  | .loopEnd =>
    match s.below with
    | [] => { s with unexpected := t.position :: s.unexpected }
    | (_, before) :: below => { s with top := .loop (Node.build s.top .empty) :: before, below }

/-- Complaints about the brackets without partner: first the closing, then the
    opening ones, each from the left. -/
def complaints (s : Stack) : List Complaint :=
  s.unexpected.reverse.map (fun p => ⟨p, Bytes.ofString "unexpected ]"⟩) ++
    s.below.reverse.map (fun b => ⟨b.1, Bytes.ofString "unterminated loop"⟩)

/-- The block that was read. A program ends by halting. -/
def block (s : Stack) : Block :=
  Node.build s.top (.command .halt .empty)

end Stack

namespace Block

/-- The block of the source with the given name. A failed read counts before
    brackets without partner, of which the first are reported. -/
def parse (name : String) (chunks : List Chunk) : Except SourceError Block :=
  let glyphs := Glyph.ofChunks chunks
  match Glyph.readFailure? glyphs with
  | some message => .error (.unreadable ((Failure.ofCause message).within name))
  | none =>
    let stack := (Token.ofGlyphs glyphs).foldl Stack.push {}
    match stack.complaints with
    | [] => .ok stack.block
    | complaints => .error (.unbalanced name (complaints.take Complaint.limit))

end Block

end TapeLang
