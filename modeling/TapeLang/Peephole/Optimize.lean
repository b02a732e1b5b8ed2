import TapeLang.Peephole.Jumps
import TapeLang.Peephole.Pass

/-! # The peephole optimizer

Rounds of all passes are applied once, or as often as they still fuse
something. Every fusion makes the program shorter, so this ends. At last the
jump pairs of the result are linked.
-/

namespace TapeLang

namespace Peephole

/-- A pass that fused something. -/
structure Tally where
  round : Nat
  pass : String
  fusions : Nat
  deriving Repr, DecidableEq

/-- The log line of a tally. -/
def Tally.message (t : Tally) : String :=
  s!"round {t.round}: {t.pass}: {t.fusions} rewrites"

/-- A program under optimization. -/
structure Progress where
  code : List Instruction
  /-- Number of fusions in this round. -/
  total : Nat := 0
  tallies : List Tally := []

/-- Apply one pass. -/
def Progress.advance (round : Nat) (g : Progress) (pass : Pass) : Progress :=
  let (code, fusions) := pass.run g.code
  { code
    total := g.total + fusions
    tallies := if 0 < fusions then g.tallies ++ [⟨round, pass.name, fusions⟩] else g.tallies }

/-- Apply all passes once. -/
def sweep (round : Nat) (code : List Instruction) : Progress :=
  passes.foldl (Progress.advance round) { code }

/-- A pass makes a program shorter by at least its number of fusions. -/
theorem Progress.length_advance (round : Nat) (g : Progress) (pass : Pass) :
    (g.advance round pass).code.length + (g.advance round pass).total ≤
      g.code.length + g.total := by
  have := pass.length_run g.code
  simp only [Progress.advance]
  omega

/-- Passes make a program shorter by at least their number of fusions. -/
theorem length_foldl_advance (round : Nat) (ps : List Pass) (g : Progress) :
    (ps.foldl (Progress.advance round) g).code.length +
      (ps.foldl (Progress.advance round) g).total ≤ g.code.length + g.total := by
  induction ps generalizing g with
  | nil => simp
  | cons pass rest ih =>
    have := ih (g.advance round pass)
    have := Progress.length_advance round g pass
    simp only [List.foldl_cons]
    omega

/-- A round makes a program shorter by at least its number of fusions. -/
theorem length_sweep (round : Nat) (code : List Instruction) :
    (sweep round code).code.length + (sweep round code).total ≤ code.length := by
  simpa [sweep] using length_foldl_advance round passes { code }

/-- Rounds from number `round` on: until one fuses nothing if `fixpoint` is
    set, else a single one. `before` are the tallies of earlier rounds. -/
def rounds (fixpoint : Bool) (round : Nat) (before : List Tally) (code : List Instruction) :
    List Instruction × List Tally :=
  let g := sweep round code
  if _h : g.total = 0 ∨ fixpoint = false then (g.code, before ++ g.tallies)
  else rounds fixpoint (round + 1) (before ++ g.tallies) g.code
termination_by code.length
decreasing_by
  have := length_sweep round code
  have : (sweep round code).total ≠ 0 := fun z => _h (Or.inl z)
  omega

/-- Optimize a program: the new program, and the tallies of the passes that
    fused something. -/
def optimize (fixpoint : Bool) (p : Program) : Program × List Tally :=
  let (code, tallies) := rounds fixpoint 1 [] p.toList
  (Program.link code.toArray, tallies)

end Peephole

end TapeLang
