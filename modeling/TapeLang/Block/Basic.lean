import TapeLang.Text.Bytes

/-! # Blocks of commands

A program of the tape language is a block: a sequence of commands and loops,
where the body of a loop is again a block. Besides the six commands of the
language there is a halt, which ends every parsed program, and room for
command numbers that mean nothing.
-/

namespace TapeLang

/-- A single command. -/
inductive Command where
  /-- Move one cell to the right. -/
  | right
  /-- Move one cell to the left. -/
  | left
  /-- Add one to the current cell. -/
  | inc
  /-- Take one from the current cell. -/
  | dec
  /-- Write the current cell. -/
  | output
  /-- Read the current cell. -/
  | input
  /-- End the program. -/
  | halt
  /-- The number `8 + n`, which means no command. -/
  | unknown (n : Fin 248)
  deriving Repr, DecidableEq, Inhabited

/-- A sequence of commands and loops. -/
inductive Block where
  /-- Nothing. -/
  | empty
  /-- A command, then the rest. -/
  | command (c : Command) (rest : Block)
  /-- A loop, then the rest. -/
  | loop (body rest : Block)
  deriving Repr, DecidableEq, Inhabited

/-- What a block starts with. -/
inductive Kind where
  | loop
  | command (c : Command)
  deriving Repr, DecidableEq, Inhabited

/-- The name of a command. -/
def Command.name : Command → String
  | .right => ">"
  | .left => "<"
  | .inc => "+"
  | .dec => "-"
  | .output => "."
  | .input => ","
  | .halt => "halt"
  | .unknown n => s!"node({8 + n.val})"

/-- How a command is written in a source; a halt is not written. -/
def Command.source : Command → Bytes
  | .halt => []
  | c => Bytes.ofString c.name

namespace Kind

/-- The name of a kind. -/
def name : Kind → String
  | .loop => "["
  | .command c => c.name

/-- The kind with the given number. -/
def ofByte (b : UInt8) : Kind :=
  match b.toNat with
  | 0 => .loop
  | 1 => .command .right
  | 2 => .command .left
  | 3 => .command .inc
  | 4 => .command .dec
  | 5 => .command .output
  | 6 => .command .input
  | 7 => .command .halt
  | n => .command (.unknown (Fin.ofNat 248 (n - 8)))

end Kind

namespace Block

/-- Put a loop or command in front; only a loop has a body. -/
def cons (kind : Kind) (body rest : Block) : Block :=
  match kind with
  | .loop => .loop body rest
  | .command c => .command c rest

/-- What stands at the top level of a block, after `before`. -/
def kindsAfter (before : Array Kind) : Block → Array Kind
  | .empty => before
  | .command c rest => kindsAfter (before.push (.command c)) rest
  | .loop _ rest => kindsAfter (before.push .loop) rest

/-- What stands at the top level of a block. -/
def kinds (b : Block) : List Kind :=
  (kindsAfter #[] b).toList

/-- The source of a block, after `before`. -/
def renderAfter (before : Array UInt8) : Block → Array UInt8
  | .empty => before
  | .command c rest => renderAfter (before ++ c.source) rest
  | .loop body rest => renderAfter ((renderAfter (before.push 91) body).push 93) rest

/-- The source of a block. -/
def render (b : Block) : Bytes :=
  (renderAfter #[] b).toList

/-- The nesting depth of the loops of a block, or `least` if that is more. -/
def depthFrom (least : Nat) : Block → Nat
  | .empty => least
  | .command _ rest => depthFrom least rest
  | .loop body rest => depthFrom (max least (depthFrom 0 body + 1)) rest

/-- The nesting depth of the loops of a block. -/
def depth (b : Block) : Nat :=
  depthFrom 0 b

end Block

end TapeLang
