import Mathlib.Data.List.Forall2
import TapeLang.Peephole.Jumps
import TapeLang.Proofs.Code

/-! # Code in programs

`Layout` says which programs spell a tree of loops. In a linked one the operands
of a pair of jumps are the distance between them; this is how control finds the
other end of a loop.

The optimizer looks at programs from some instruction on. `Reads` says what such
a remainder spells: code up to the end of the innermost loop that is still
open, and what comes behind the open loops, from the innermost outward.
-/

namespace TapeLang

namespace Code

/-- The number of instructions. -/
def length : Code → Nat
  | .done => 0
  | .plain _ rest => rest.length + 1
  | .loop body rest => body.length + rest.length + 2

/-- One code, then another. -/
def append : Code → Code → Code
  | .done, d => d
  | .plain i rest, d => .plain i (rest.append d)
  | .loop body rest, d => .loop body (rest.append d)

@[simp] theorem append_done (c : Code) : c.append .done = c := by
  induction c with
  | done => rfl
  | plain i rest ih => rw [append, ih]
  | loop body rest _ ih => rw [append, ih]

/-- Every loop is short enough for its distance to be an operand. -/
def Short : Code → Prop
  | .done => True
  | .plain _ rest => rest.Short
  | .loop body rest => body.length + 1 ≤ Instruction.maxOperand ∧ body.Short ∧ rest.Short

/-- The indices of the jumps of code that starts at index `k`. -/
def pairs (k : Nat) : Code → List (Nat × Nat)
  | .done => []
  | .plain _ rest => rest.pairs (k + 1)
  | .loop body rest =>
    body.pairs (k + 1) ++ (k, k + (body.length + 1)) :: rest.pairs (k + (body.length + 2))

end Code

/-- An instruction is no jump. -/
def Instruction.IsPlain (i : Instruction) : Prop :=
  i.op ≠ .jez ∧ i.op ≠ .jnz

instance (i : Instruction) : Decidable i.IsPlain :=
  inferInstanceAs (Decidable (_ ∧ _))

/-- The instructions of code. What the operands of the jumps of a loop have to
    do with the distance between them is up to `fits`. -/
inductive Layout (fits : Instruction → Nat → Prop) : Code → List Instruction → Prop where
  | done : Layout fits .done []
  | plain {i : Instruction} {rest : Code} {q : List Instruction} (isPlain : i.IsPlain)
      (later : Layout fits rest q) : Layout fits (.plain i rest) (i :: q)
  | loop {o e : Instruction} {body rest : Code} {p q : List Instruction}
      (opens : o.op = .jez) (inside : Layout fits body p) (closes : e.op = .jnz)
      (later : Layout fits rest q) (out : fits o (body.length + 1))
      (back : fits e (body.length + 1)) :
      Layout fits (.loop body rest) (o :: (p ++ e :: q))

/-- The program spells the code, and each jump leads to the other one of its
    loop. -/
abbrev Linked : Code → List Instruction → Prop :=
  Layout fun i distance => i.arg.toNat = distance

/-- The program spells the code, whatever the operands of its jumps. -/
abbrev Spelled : Code → List Instruction → Prop :=
  Layout fun _ _ => True

/-- The jumps of a program match like brackets, and both operands of a pair are
    the distance between the two. -/
def Program.WellLinked (p : Program) : Prop :=
  ∃ c, Linked c p.toList

namespace Layout

variable {fits : Instruction → Nat → Prop} {c d : Code} {p q : List Instruction}

theorem length_eq (layout : Layout fits c p) : p.length = c.length := by
  induction layout with
  | done => rfl
  | plain _ _ ih => simp [Code.length, ih]
  | loop _ _ _ _ _ _ ihInside ihLater =>
      simp only [Code.length, List.length_cons, List.length_append, ihInside, ihLater]
      omega

theorem short (linked : Linked c p) : c.Short := by
  induction linked with
  | done => trivial
  | plain _ _ ih => exact ih
  | @loop o _ _ _ _ _ _ _ _ _ out _ ihInside ihLater =>
      refine ⟨?_, ihInside, ihLater⟩
      rw [← out]
      exact Nat.le_of_lt_succ o.arg.toNat_lt

end Layout

/-- What the remainder of a program spells. -/
inductive Reads : List Instruction → Code → List Code → Prop where
  | nil : Reads [] .done []
  | plain {i : Instruction} {p : List Instruction} {c : Code} {outer : List Code}
      (isPlain : i.IsPlain) (later : Reads p c outer) : Reads (i :: p) (.plain i c) outer
  | closing {e : Instruction} {p : List Instruction} {c : Code} {outer : List Code}
      (closes : e.op = .jnz) (later : Reads p c outer) : Reads (e :: p) .done (c :: outer)
  | opening {o : Instruction} {p : List Instruction} {body rest : Code} {outer : List Code}
      (opens : o.op = .jez) (later : Reads p body (rest :: outer)) :
      Reads (o :: p) (.loop body rest) outer

/-- The rest of a program behind the loops that are open. -/
inductive Behind : List Code → List Instruction → Prop where
  | nil : Behind [] []
  | cons {e : Instruction} {c : Code} {p q : List Instruction} {outer : List Code}
      (closes : e.op = .jnz) (inside : Spelled c p) (later : Behind outer q) :
      Behind (c :: outer) (e :: (p ++ q))

section Reading

variable {fits : Instruction → Nat → Prop} {c d : Code} {p q : List Instruction}
  {outer : List Code}

theorem Layout.reads_append (front : Layout fits c p) (behind : Reads q d outer) :
    Reads (p ++ q) (c.append d) outer := by
  induction front generalizing q d outer with
  | done => exact behind
  | plain isPlain _ ih => exact .plain isPlain (ih behind)
  | loop opens _ closes _ _ _ ihInside ihLater =>
      rw [List.cons_append, List.append_assoc, List.cons_append]
      have inside := ihInside (Reads.closing closes (ihLater behind))
      rw [Code.append_done] at inside
      exact .opening opens inside

theorem Layout.reads (layout : Layout fits c p) : Reads p c [] := by
  simpa using layout.reads_append Reads.nil

/-- What is read falls into the code up to the end of the innermost open loop
    and the rest behind it. -/
theorem Reads.split (reads : Reads p c outer) :
    ∃ inner rest, p = inner ++ rest ∧ Spelled c inner ∧ Behind outer rest := by
  induction reads with
  | nil => exact ⟨[], [], rfl, .done, .nil⟩
  | @plain i _ _ _ isPlain _ ih =>
      obtain ⟨inner, rest, rfl, spelled, behind⟩ := ih
      exact ⟨i :: inner, rest, rfl, .plain isPlain spelled, behind⟩
  | closing closes _ ih =>
      obtain ⟨inner, rest, rfl, spelled, behind⟩ := ih
      exact ⟨[], _, rfl, .done, .cons closes spelled behind⟩
  | @opening o _ _ _ _ opens _ ih =>
      obtain ⟨inner, _, rfl, spelled, behind⟩ := ih
      cases behind with
      | @cons e _ later rest _ closes inside behind =>
          refine ⟨o :: (inner ++ e :: later), rest, by simp, ?_, behind⟩
          exact .loop opens spelled closes inside trivial trivial

theorem Reads.spelled (reads : Reads p c []) : Spelled c p := by
  obtain ⟨inner, rest, rfl, spelled, behind⟩ := reads.split
  cases behind
  rwa [List.append_nil]

end Reading

/-! ## Linking

Linking pairs up the jumps of a program that spells code as the code says, and
sets the distance of every loop.
-/

section Linking

variable {fits : Instruction → Nat → Prop} {c : Code} {p q u v : List Instruction}
  {i : Instruction} {opened : List Nat} {found : List (Nat × Nat)} {k o : Nat}

theorem Program.pairUp_plain (isPlain : i.IsPlain) :
    pairUp k opened found (i :: p) = pairUp (k + 1) opened found p := by
  rw [pairUp.eq_def]
  simp only [if_neg isPlain.1, if_neg isPlain.2]

theorem Program.pairUp_open (opens : i.op = .jez) :
    pairUp k opened found (i :: p) = pairUp (k + 1) (k :: opened) found p := by
  rw [pairUp.eq_def]
  simp only [if_pos opens]

theorem Program.pairUp_close (closes : i.op = .jnz) :
    pairUp k (o :: opened) found (i :: p) = pairUp (k + 1) opened ((o, k) :: found) p := by
  rw [pairUp.eq_def]
  simp [closes]

theorem Layout.pairUp_append (layout : Layout fits c p) (k : Nat) (opened : List Nat)
    (found : List (Nat × Nat)) :
    Program.pairUp k opened found (p ++ q) =
      Program.pairUp (k + c.length) opened ((c.pairs k).reverse ++ found) q := by
  induction layout generalizing k opened found q with
  | done => rfl
  | plain isPlain _ ih =>
      rw [List.cons_append, Program.pairUp_plain isPlain, ih]
      simp only [Code.length, Code.pairs, Nat.add_assoc, Nat.add_comm 1]
  | @loop o e body rest _ _ opens _ closes _ _ _ ihInside ihLater =>
      rw [List.cons_append, List.append_assoc, List.cons_append, Program.pairUp_open opens, ihInside,
        Program.pairUp_close closes, ihLater]
      simp only [Code.length, Code.pairs, List.reverse_append, List.reverse_cons, List.append_assoc,
        List.cons_append, List.nil_append]
      congr 1
      · omega
      · have first : k + 1 + body.length = k + (body.length + 1) := by omega
        have second : k + 1 + body.length + 1 = k + (body.length + 2) := by omega
        rw [second, first]

theorem Layout.jumpPairs_eq {program : Program} (layout : Layout fits c program.toList) :
    program.jumpPairs = c.pairs 0 := by
  have paired := layout.pairUp_append (q := []) 0 [] []
  rw [List.append_nil, List.append_nil] at paired
  rw [Program.jumpPairs, paired, Program.pairUp, List.reverse_reverse]

theorem modify_append_cons {α : Type} (f : α → α) (u v : List α) (x : α) :
    (u ++ x :: v).modify u.length f = u ++ f x :: v := by
  induction u with
  | nil => rfl
  | cons y u ih => simp [ih]

/-- Set the distance of a jump. -/
def Instruction.reach (distance : Nat) (i : Instruction) : Instruction :=
  { i with arg := distance.toUInt16 }

theorem Program.toList_linkPair {program : Program} {o e : Instruction}
    (split : program.toList = u ++ o :: (p ++ e :: v)) :
    (program.linkPair (u.length, u.length + (p.length + 1))).toList =
      u ++ o.reach (p.length + 1) :: (p ++ e.reach (p.length + 1) :: v) := by
  have distance : u.length + (p.length + 1) - u.length = p.length + 1 := by omega
  have second (x : Instruction) : u ++ x :: (p ++ e :: v) = (u ++ x :: p) ++ e :: v := by simp
  have position (x : Instruction) : u.length + (p.length + 1) = (u ++ x :: p).length := by simp
  simp only [linkPair, Array.toList_modify, split, distance, modify_append_cons]
  rw [second, position, modify_append_cons]
  simp [Instruction.reach]

theorem Layout.link_pairs (spelled : Layout fits c p) (short : c.Short) {program : Program}
    (split : program.toList = u ++ (p ++ v)) :
    ∃ p', ((c.pairs u.length).foldl Program.linkPair program).toList = u ++ (p' ++ v) ∧
      Linked c p' := by
  induction spelled generalizing program u v with
  | done => exact ⟨[], split, .done⟩
  | @plain i _ q isPlain _ ih =>
      have moved : program.toList = (u ++ [i]) ++ (q ++ v) := by simp [split]
      obtain ⟨q', linked, layout⟩ := ih short moved
      refine ⟨i :: q', ?_, .plain isPlain layout⟩
      simpa [Code.pairs] using linked
  | @loop o e body rest p q opens inside closes _ _ _ ihInside ihLater =>
      obtain ⟨fits, shortBody, shortRest⟩ := short
      have moved : program.toList = (u ++ [o]) ++ (p ++ (e :: (q ++ v))) := by simp [split]
      obtain ⟨p', linkedBody, layoutBody⟩ := ihInside shortBody moved
      have pair := Program.toList_linkPair (u := u) (o := o) (p := p') (e := e) (v := q ++ v)
        (by simpa using linkedBody)
      obtain ⟨q', linkedRest, layoutRest⟩ :=
        ihLater (u := u ++ o.reach (p'.length + 1) :: (p' ++ [e.reach (p'.length + 1)])) (v := v)
          shortRest (by simpa using pair)
      have reached : (body.length + 1).toUInt16.toNat = body.length + 1 := by
        rw [Nat.toUInt16_eq, UInt16.toNat_ofNat_of_lt']
        exact Nat.lt_succ_of_le fits
      refine ⟨_, ?_, .loop (o := o.reach (body.length + 1)) (e := e.reach (body.length + 1))
        opens layoutBody closes layoutRest reached reached⟩
      rw [layoutBody.length_eq] at linkedRest
      simpa [Code.pairs, layoutBody.length_eq] using linkedRest

/-- Linking a program whose loops are short links the code it spells. -/
theorem Spelled.linked {program : Program} (spelled : Layout fits c program.toList)
    (short : c.Short) : Linked c program.link.toList := by
  have whole : program.toList = [] ++ (program.toList ++ []) := by simp
  obtain ⟨p', same, linked⟩ := spelled.link_pairs short whole
  rw [List.nil_append, List.append_nil, List.length_nil] at same
  rw [Program.link, spelled.jumpPairs_eq, same]
  exact linked

end Linking

end TapeLang
