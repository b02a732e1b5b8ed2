import TapeLang.Block.Lower
import TapeLang.Block.Parse

/-! # Compiling a source

A source is parsed into a block and the block is lowered to a program.
-/

namespace TapeLang

/-- Compile the source with the given name. -/
def compile (how : Lowering) (name : String) (chunks : List Chunk) :
    Except SourceError Lowered :=
  match Block.parse name chunks with
  | .error e => .error e
  | .ok block =>
    match block.lower how with
    | .error e => .error (.unfit ((Failure.ofCause e.message).within name))
    | .ok lowered => .ok lowered

end TapeLang
