import TapeLang.Instruction

/-! # Jump pairs

A forward and a backward jump belong together like opening and closing
brackets. Linking a program sets both distances of every pair to the number of
instructions between its two ends; jumps without partner are left alone.
-/

namespace TapeLang

namespace Program

/-- Pair up the jumps of the instructions from index `k` on. `opened` are the
    indices of forward jumps without partner so far, innermost first; `pairs`
    those found so far, latest first. -/
def pairUp (k : Nat) (opened : List Nat) (pairs : List (Nat × Nat)) :
    List Instruction → List (Nat × Nat)
  | [] => pairs.reverse
  | i :: rest =>
    if i.op = .jez then pairUp (k + 1) (k :: opened) pairs rest
    else if i.op = .jnz then
      match opened with
      | [] => pairUp (k + 1) [] pairs rest
      | o :: opened => pairUp (k + 1) opened ((o, k) :: pairs) rest
    else pairUp (k + 1) opened pairs rest

/-- The index pairs of jumps that belong together, in the order of their ends. -/
def jumpPairs (p : Program) : List (Nat × Nat) :=
  pairUp 0 [] [] p.toList

/-- Set the distances of one pair. -/
def linkPair (p : Program) (pair : Nat × Nat) : Program :=
  let distance := (pair.2 - pair.1).toUInt16
  (p.modify pair.1 ({ · with arg := distance })).modify pair.2 ({ · with arg := distance })

/-- Set the distances of all jump pairs. -/
def link (p : Program) : Program :=
  p.jumpPairs.foldl linkPair p

end Program

end TapeLang
