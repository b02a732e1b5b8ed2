import TapeLang.Instruction

/-! # Fusion rules

A rule replaces a window of neighbouring instructions by a single one. Windows
with jumps only match complete loops without inner jumps. Distances of jumps
are not looked at; they are set anew once all fusing is done.
-/

namespace TapeLang

namespace Peephole

/-- What a fusion at the front of a program leaves: the new instruction and the
    instructions after the window. -/
abbrev Fusion := Instruction × List Instruction

/-- A rule for windows at the front of a program. -/
structure Rule where
  /-- Apply the rule, if it matches. -/
  fuse? : List Instruction → Option Fusion
  /-- A window has at least two instructions. -/
  shorter : ∀ p i rest, fuse? p = some (i, rest) → rest.length + 1 < p.length

/-- The fused move of a loop that goes `there` to add and comes `back`: moves by
    the same non-zero distance in opposite directions. -/
def fuseMove : (there back : Instruction) → Option Instruction
  | ⟨.right, n, _⟩, ⟨.left, m, _⟩ => if n = m && n != 0 then some (.amover n) else none
  | ⟨.left, n, _⟩, ⟨.right, m, _⟩ => if n = m && n != 0 then some (.amovel n) else none
  | _, _ => none

/-- Fuse a loop that counts the current cell to zero, or clears it. -/
def fuseClearLoop : List Instruction → Option Fusion
  | ⟨.jez, _, _⟩ :: body :: ⟨.jnz, _, _⟩ :: rest =>
    if body = .add 1 || body = .add 255 || body = .zero then some (.zero, rest) else none
  | _ => none

/-- Fuse clearing a cell twice. -/
def fuseZeroZero : List Instruction → Option Fusion
  | a :: b :: rest => if a = .zero && b = .zero then some (.zero, rest) else none
  | _ => none

/-- Fuse a loop that only moves. -/
def fuseSearchLoop : List Instruction → Option Fusion
  | ⟨.jez, _, _⟩ :: ⟨.right, n, _⟩ :: ⟨.jnz, _, _⟩ :: rest =>
    if n != 0 then some (.searchr n, rest) else none
  | ⟨.jez, _, _⟩ :: ⟨.left, n, _⟩ :: ⟨.jnz, _, _⟩ :: rest =>
    if n != 0 then some (.searchl n, rest) else none
  | _ => none

/-- Fuse a loop that takes from the current cell and gives to another. -/
def fuseMoveLoop : List Instruction → Option Fusion
  | ⟨.jez, _, _⟩ :: take :: there :: give :: back :: ⟨.jnz, _, _⟩ :: rest =>
    if take = .add 255 && give = .add 1 then
      match fuseMove there back with
      | some i => some (i, rest)
      | none => none
    else none
  | _ => none

/-- Fuse a loop that gives to another cell and takes from the current one. -/
def fuseMoveLoopSwapped : List Instruction → Option Fusion
  | ⟨.jez, _, _⟩ :: there :: give :: back :: take :: ⟨.jnz, _, _⟩ :: rest =>
    if give = .add 1 && take = .add 255 then
      match fuseMove there back with
      | some i => some (i, rest)
      | none => none
    else none
  | _ => none

/-- Fuse clearing a cell and leaving it by one step. -/
def fuseZeroStep : List Instruction → Option Fusion
  | a :: b :: rest =>
    if a = .zero then
      if b = .right 1 then some (.zeror 1, rest)
      else if b = .left 1 then some (.zerol 1, rest)
      else none
    else none
  | _ => none

/-- Fuse neighbouring areas in one direction, if their sizes add up to an
    operand. -/
def fuseZeroMerge : List Instruction → Option Fusion
  | ⟨.zeror, n, _⟩ :: ⟨.zeror, m, _⟩ :: rest =>
    if n.toNat + m.toNat ≤ Instruction.maxOperand then some (.zeror (n + m), rest) else none
  | ⟨.zerol, n, _⟩ :: ⟨.zerol, m, _⟩ :: rest =>
    if n.toNat + m.toNat ≤ Instruction.maxOperand then some (.zerol (n + m), rest) else none
  | _ => none

/-- Fuse the diffusion loop, whose inner loop is already fused. -/
def fuseMandelLoop : List Instruction → Option Fusion
  | ⟨.jez, _, _⟩ :: ⟨.right, x, _⟩ :: ⟨.amover, n, _⟩ :: ⟨.left, q, _⟩ :: ⟨.jnz, _, _⟩ :: rest =>
    if x.toNat + n.toNat = q.toNat then some (.mandel x n, rest) else none
  | _ => none

/-- `[-]` and `[+]`. -/
def clearLoop : Rule where
  fuse? := fuseClearLoop
  shorter p i rest h := by
    unfold fuseClearLoop at h
    split at h <;> grind

/-- `[-][-]` with the loops fused. -/
def zeroZero : Rule where
  fuse? := fuseZeroZero
  shorter p i rest h := by
    unfold fuseZeroZero at h
    split at h <;> grind

/-- `[>]` and `[<<]`. -/
def searchLoop : Rule where
  fuse? := fuseSearchLoop
  shorter p i rest h := by
    unfold fuseSearchLoop at h
    split at h <;> grind

/-- `[->>+<<]` and `[-<<+>>]`. -/
def moveLoop : Rule where
  fuse? := fuseMoveLoop
  shorter p i rest h := by
    unfold fuseMoveLoop at h
    split at h <;> grind

/-- `[>>+<<-]` and `[<<+>>-]`. -/
def moveLoopSwapped : Rule where
  fuse? := fuseMoveLoopSwapped
  shorter p i rest h := by
    unfold fuseMoveLoopSwapped at h
    split at h <;> grind

/-- `[-]>` and `[-]<`. -/
def zeroStep : Rule where
  fuse? := fuseZeroStep
  shorter p i rest h := by
    unfold fuseZeroStep at h
    split at h <;> grind

/-- `[-]>[-]>` with the steps fused. -/
def zeroMerge : Rule where
  fuse? := fuseZeroMerge
  shorter p i rest h := by
    unfold fuseZeroMerge at h
    split at h <;> grind

/-- `[>[->+<]<<]` with the inner loop fused. -/
def mandelLoop : Rule where
  fuse? := fuseMandelLoop
  shorter p i rest h := by
    unfold fuseMandelLoop at h
    split at h <;> grind

end Peephole

end TapeLang
