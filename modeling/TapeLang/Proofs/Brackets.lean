import Mathlib.Data.Finset.Lattice.Fold
import Mathlib.Data.List.Infix
import Mathlib.Order.Lattice.Nat
import TapeLang.Block.Basic

/-! # Brackets of a source

A source is balanced if no beginning of it closes more brackets than it opens, and
all of it closes as many. How far opening brackets run ahead is how deep its loops
are nested; how far closing brackets run ahead is how many have no partner.
-/

namespace TapeLang

namespace Bytes

/-- The most by which a beginning has more of one byte than of another. -/
def surplus (x y : UInt8) (source : Bytes) : Nat :=
  source.inits.toFinset.sup fun start => start.count x - start.count y

/-- The deepest nesting of brackets: the most that are open at a time. -/
def nesting (source : Bytes) : Nat :=
  source.surplus 91 93

/-- Every bracket has its partner. -/
def Balanced (source : Bytes) : Prop :=
  (∀ start ∈ source.inits, start.count 93 ≤ start.count 91) ∧ source.count 93 = source.count 91

instance (source : Bytes) : Decidable source.Balanced :=
  inferInstanceAs (Decidable (_ ∧ _))

section Surplus

variable {x y z : UInt8} {source : Bytes} {k : Nat}

theorem surplus_le_iff :
    surplus x y source ≤ k ↔ ∀ start ∈ source.inits, start.count x ≤ start.count y + k := by
  simp only [surplus, Finset.sup_le_iff, List.mem_toFinset, Nat.sub_le_iff_le_add']

theorem surplus_cons_le_iff : surplus x y (z :: source) ≤ k ↔
    ∀ start ∈ source.inits, (z :: start).count x ≤ (z :: start).count y + k := by
  rw [surplus_le_iff, List.inits_cons, List.forall_mem_cons, List.forall_mem_map]
  simp

@[simp] theorem surplus_nil : surplus x y [] = 0 := rfl

theorem surplus_cons_self (apart : x ≠ y) :
    surplus x y (x :: source) = surplus x y source + 1 := by
  apply eq_of_forall_ge_iff
  intro k
  rw [surplus_cons_le_iff]
  cases k with
  | zero =>
      have first : ¬ ∀ start ∈ source.inits, (x :: start).count x ≤ (x :: start).count y := by
        intro h
        have := h [] (by simp)
        simp [apart] at this
      simpa using first
  | succ k =>
      rw [Nat.add_le_add_iff_right, surplus_le_iff]
      simp [apart, ← Nat.add_assoc]

theorem surplus_cons_other (apart : x ≠ y) :
    surplus x y (y :: source) = surplus x y source - 1 := by
  apply eq_of_forall_ge_iff
  intro k
  rw [surplus_cons_le_iff, Nat.sub_le_iff_le_add, surplus_le_iff]
  simp [apart.symm, Nat.add_assoc, Nat.add_comm 1]

theorem surplus_cons_of_ne (notX : z ≠ x) (notY : z ≠ y) :
    surplus x y (z :: source) = surplus x y source := by
  apply eq_of_forall_ge_iff
  intro k
  rw [surplus_cons_le_iff, surplus_le_iff]
  simp [notX, notY]

end Surplus

@[simp] theorem nesting_open (source : Bytes) : nesting (91 :: source) = nesting source + 1 :=
  surplus_cons_self (by decide)

@[simp] theorem nesting_close (source : Bytes) : nesting (93 :: source) = nesting source - 1 :=
  surplus_cons_other (by decide)

theorem nesting_append_of_no_brackets {a : Bytes} (source : Bytes) (noOpening : 91 ∉ a)
    (noClosing : 93 ∉ a) : nesting (a ++ source) = nesting source := by
  induction a with
  | nil => rfl
  | cons z a ih =>
      simp only [List.mem_cons, not_or] at noOpening noClosing
      rw [List.cons_append, nesting, surplus_cons_of_ne (Ne.symm noOpening.1) (Ne.symm noClosing.1)]
      exact ih noOpening.2 noClosing.2

end Bytes

/-! ## The source of a block -/

namespace Block

theorem toList_renderAfter (before : Array UInt8) (b : Block) :
    (renderAfter before b).toList = before.toList ++ b.render := by
  induction b generalizing before with
  | empty => simp [render, renderAfter]
  | command c rest ih =>
      have whole : render (.command c rest) = (renderAfter (#[] ++ c.source) rest).toList := rfl
      rw [renderAfter, ih, whole, ih]
      simp
  | loop body rest ihBody ihRest =>
      have whole : render (.loop body rest) =
        (renderAfter ((renderAfter (#[].push 91) body).push 93) rest).toList := rfl
      rw [renderAfter, ihRest, whole, ihRest]
      simp [ihBody]

@[simp] theorem render_empty : render .empty = [] := rfl

@[simp] theorem render_command (c : Command) (rest : Block) :
    render (.command c rest) = c.source ++ rest.render := by
  rw [render, renderAfter, toList_renderAfter]
  simp

@[simp] theorem render_loop (body rest : Block) :
    render (.loop body rest) = 91 :: (body.render ++ 93 :: rest.render) := by
  rw [render, renderAfter, toList_renderAfter, Array.toList_push, toList_renderAfter]
  simp

theorem depthFrom_eq_max (least : Nat) (b : Block) : b.depthFrom least = max least b.depth := by
  induction b generalizing least with
  | empty => simp [depth, depthFrom]
  | command c rest ih => exact ih least
  | loop body rest _ ih =>
      simp only [depth, depthFrom]
      rw [ih, ih (max 0 _)]
      omega

@[simp] theorem depth_empty : depth .empty = 0 := rfl

@[simp] theorem depth_command (c : Command) (rest : Block) : depth (.command c rest) = rest.depth :=
  rfl

@[simp] theorem depth_loop (body rest : Block) :
    depth (.loop body rest) = max (body.depth + 1) rest.depth := by
  rw [depth, depthFrom, depthFrom_eq_max, Nat.zero_max]
  rfl

theorem no_brackets_source (c : Command) : 91 ∉ c.source ∧ 93 ∉ c.source := by
  have unknown : ∀ n : Fin 248,
      91 ∉ (Command.unknown n).source ∧ 93 ∉ (Command.unknown n).source := by
    decide +kernel
  cases c with
  | unknown n => exact unknown n
  | right | left | inc | dec | output | input | halt => decide

theorem nesting_render_append (b : Block) (source : Bytes) :
    Bytes.nesting (b.render ++ source) = max b.depth (Bytes.nesting source) := by
  induction b generalizing source with
  | empty => simp
  | command c rest ih =>
      obtain ⟨noOpening, noClosing⟩ := no_brackets_source c
      rw [render_command, List.append_assoc,
        Bytes.nesting_append_of_no_brackets _ noOpening noClosing, ih, depth_command]
  | loop body rest ihBody ihRest =>
      rw [render_loop, List.cons_append, List.append_assoc, List.cons_append, Bytes.nesting_open,
        ihBody, Bytes.nesting_close, ihRest, depth_loop]
      omega

/-- Loops are nested as deep as the brackets of the source. -/
theorem nesting_render (b : Block) : b.render.nesting = b.depth := by
  have same := nesting_render_append b []
  simpa [Bytes.nesting] using same

end Block

end TapeLang
