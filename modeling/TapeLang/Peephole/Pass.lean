import TapeLang.Peephole.Rule

/-! # Passes

A pass scans a program from left to right and applies the first of its rules
that matches. After a fusion the scan goes on at the new instruction, which
may start another window.
-/

namespace TapeLang

namespace Peephole

/-- Rules that are applied in one scan. -/
structure Pass where
  name : String
  rules : List Rule

namespace Pass

/-- The first fusion at the front of a program. -/
def fuse? (pass : Pass) (p : List Instruction) : Option Fusion :=
  pass.rules.findSome? (·.fuse? p)

/-- A fusion makes a program shorter. -/
theorem length_of_fuse? {pass : Pass} {p rest : List Instruction} {i : Instruction}
    (h : pass.fuse? p = some (i, rest)) : rest.length + 1 < p.length := by
  obtain ⟨r, _, hr⟩ := List.exists_of_findSome?_eq_some h
  exact r.shorter _ _ _ hr

/-- Scan the rest `p` of a program, with the instructions before it in reverse
    and the number of fusions so far. -/
def scan (pass : Pass) (before : List Instruction) (fusions : Nat) (p : List Instruction) :
    List Instruction × Nat :=
  match p with
  | [] => (before.reverse, fusions)
  | i :: rest =>
    match _h : pass.fuse? (i :: rest) with
    | some (j, after) => scan pass before (fusions + 1) (j :: after)
    | none => scan pass (i :: before) fusions rest
termination_by p.length
decreasing_by
  · have := length_of_fuse? _h
    simpa using this
  · simp

/-- Apply a pass to a program: the new program and the number of fusions. -/
def run (pass : Pass) (p : List Instruction) : List Instruction × Nat :=
  scan pass [] 0 p

/-- Every fusion makes a program shorter by at least one. -/
theorem length_scan (pass : Pass) (before : List Instruction) (fusions : Nat)
    (p : List Instruction) :
    (scan pass before fusions p).1.length + (scan pass before fusions p).2 ≤
      before.length + fusions + p.length := by
  fun_induction scan pass before fusions p with
  | case1 before fusions => simp
  | case2 before fusions i rest j after h ih =>
    have := length_of_fuse? h
    simp only [List.length_cons] at ih this ⊢
    omega
  | case3 before fusions i rest h ih =>
    simp only [List.length_cons] at ih ⊢
    omega

/-- Every fusion of a pass makes a program shorter by at least one. -/
theorem length_run (pass : Pass) (p : List Instruction) :
    (pass.run p).1.length + (pass.run p).2 ≤ p.length := by
  have := length_scan pass [] 0 p
  simpa [run] using this

end Pass

/-- Loops that clear a cell. -/
def clearPass : Pass := ⟨"clear", [clearLoop]⟩

/-- Repeated clearing. -/
def dedupPass : Pass := ⟨"dedup", [zeroZero]⟩

/-- Loops that search for a zero cell. -/
def searchPass : Pass := ⟨"search", [searchLoop]⟩

/-- Loops that move a cell. -/
def movePass : Pass := ⟨"move", [moveLoop, moveLoopSwapped]⟩

/-- Areas of cleared cells. -/
def areaPass : Pass := ⟨"zero-area", [zeroStep, zeroMerge]⟩

/-- Diffusion loops. -/
def mandelPass : Pass := ⟨"mandel", [mandelLoop]⟩

/-- All passes in the order in which they are applied. Areas come twice, so
    that long runs of cleared cells merge in one round. -/
def passes : List Pass :=
  [clearPass, dedupPass, searchPass, movePass, areaPass, areaPass, mandelPass]

end Peephole

end TapeLang
