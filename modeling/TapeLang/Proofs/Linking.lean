import TapeLang.Proofs.Layout

/-! # Linking any program

Linking writes to jumps only, and of a jump it changes the first operand only, so
a linked program has the jump pairs it had before. What an index holds in the end
is settled by the last pair that names it. None of this needs the jumps to match.
-/

namespace TapeLang

namespace Instruction

/-- Equal, up to the distance of a jump. -/
structure Alike (i j : Instruction) : Prop where
  op_eq : j.op = i.op
  arg2_eq : j.arg2 = i.arg2
  arg_eq : i.IsPlain → j.arg = i.arg

namespace Alike

variable {i j k : Instruction}

theorem isPlain_iff (alike : Alike i j) : j.IsPlain ↔ i.IsPlain := by
  rw [IsPlain, IsPlain, alike.op_eq]

theorem refl (i : Instruction) : Alike i i :=
  ⟨rfl, rfl, fun _ => rfl⟩

theorem symm (alike : Alike i j) : Alike j i :=
  ⟨alike.op_eq.symm, alike.arg2_eq.symm, fun plain => (alike.arg_eq (alike.isPlain_iff.mp plain)).symm⟩

theorem trans (first : Alike i j) (second : Alike j k) : Alike i k where
  op_eq := second.op_eq.trans first.op_eq
  arg2_eq := second.arg2_eq.trans first.arg2_eq
  arg_eq plain := (second.arg_eq (first.isPlain_iff.mpr plain)).trans (first.arg_eq plain)

theorem eq_of_isPlain (alike : Alike i j) (plain : i.IsPlain) : j = i := by
  obtain ⟨op, arg, arg2⟩ := i
  obtain ⟨op', arg', arg2'⟩ := j
  obtain ⟨rfl, rfl, same⟩ := alike
  cases same plain
  rfl

theorem reach {i : Instruction} (jump : ¬ i.IsPlain) (distance : Nat) : Alike i (i.reach distance) :=
  ⟨rfl, rfl, fun plain => absurd plain jump⟩

end Alike

end Instruction

/-- Programs that are equal up to the distances of their jumps. -/
abbrev Alike : List Instruction → List Instruction → Prop :=
  List.Forall₂ Instruction.Alike

namespace Alike

variable {p q r : List Instruction}

theorem refl (p : List Instruction) : Alike p p :=
  List.forall₂_same.mpr fun i _ => .refl i

theorem symm (alike : Alike p q) : Alike q p :=
  alike.flip.imp fun _ _ => .symm

theorem trans (first : Alike p q) (second : Alike q r) : Alike p r := by
  induction first generalizing r with
  | nil => exact second
  | cons head _ ih =>
      cases second with
      | cons head' tail' => exact .cons (head.trans head') (ih tail')

theorem eq_of_isPlain (alike : Alike p q) (plain : ∀ i ∈ p, i.IsPlain) : q = p := by
  induction alike with
  | nil => rfl
  | cons head _ ih =>
      rw [List.forall_mem_cons] at plain
      rw [head.eq_of_isPlain plain.1, ih plain.2]

theorem getElem? (alike : Alike p q) {k : Nat} {j : Instruction} (found : q[k]? = some j) :
    ∃ i, p[k]? = some i ∧ i.Alike j := by
  induction alike generalizing k with
  | nil => simp at found
  | cons head _ ih =>
      cases k with
      | zero =>
          cases found
          exact ⟨_, rfl, head⟩
      | succ k => exact ih found

theorem exists_of_mem (alike : Alike p q) {j : Instruction} (member : j ∈ q) :
    ∃ i ∈ p, i.Alike j := by
  obtain ⟨k, found⟩ := List.mem_iff_getElem?.mp member
  obtain ⟨i, found', alike⟩ := alike.getElem? found
  exact ⟨i, List.mem_of_getElem? found', alike⟩

/-- A change in one place that keeps the instruction there alike. -/
theorem modify {f : Instruction → Instruction} {k : Nat}
    (keeps : ∀ i, p[k]? = some i → i.Alike (f i)) : Alike p (p.modify k f) := by
  induction p generalizing k with
  | nil => simp
  | cons i p ih =>
      cases k with
      | zero => exact .cons (keeps i rfl) (refl p)
      | succ k => exact .cons (.refl i) (ih keeps)

/-- Which jumps belong together has nothing to do with their distances. -/
theorem pairUp_eq (alike : Alike p q) (k : Nat) (opened : List Nat) (found : List (Nat × Nat)) :
    Program.pairUp k opened found q = Program.pairUp k opened found p := by
  induction alike generalizing k opened found with
  | nil => rfl
  | cons head _ ih =>
      rw [Program.pairUp.eq_def, Program.pairUp.eq_def]
      simp only [head.op_eq]
      split
      · exact ih ..
      · split
        · cases opened with
          | nil => exact ih ..
          | cons => exact ih ..
        · exact ih ..

end Alike

namespace Program

/-- The indices of a forward and a later backward jump. -/
structure Joins (p : List Instruction) (pair : Nat × Nat) : Prop where
  lt : pair.1 < pair.2
  opens : ∃ o, p[pair.1]? = some o ∧ o.op = .jez
  closes : ∃ e, p[pair.2]? = some e ∧ e.op = .jnz

theorem Joins.of_alike {p q : List Instruction} (alike : Alike p q) {pair : Nat × Nat}
    (joins : Joins p pair) : Joins q pair := by
  obtain ⟨lt, ⟨o, foundO, opens⟩, ⟨e, foundE, closes⟩⟩ := joins
  obtain ⟨o', foundO', alikeO⟩ := alike.symm.getElem? foundO
  obtain ⟨e', foundE', alikeE⟩ := alike.symm.getElem? foundE
  exact ⟨lt, ⟨o', foundO', alikeO.op_eq.symm.trans opens⟩, ⟨e', foundE', alikeE.op_eq.symm.trans closes⟩⟩

theorem joins_of_mem_pairUp {u p : List Instruction} {opened : List Nat} {found : List (Nat × Nat)}
    (before : ∀ o ∈ opened, o < u.length ∧ ∃ i, (u ++ p)[o]? = some i ∧ i.op = .jez)
    (joined : ∀ pair ∈ found, Joins (u ++ p) pair) :
    ∀ pair ∈ pairUp u.length opened found p, Joins (u ++ p) pair := by
  induction p generalizing u opened found with
  | nil =>
      intro pair member
      exact joined pair (List.mem_reverse.mp member)
  | cons i p ih =>
      have whole : u ++ i :: p = (u ++ [i]) ++ p := by simp
      have next : u.length + 1 = (u ++ [i]).length := by simp
      have here : (u ++ i :: p)[u.length]? = some i := by simp
      have earlier : ∀ o ∈ opened, o < (u ++ [i]).length ∧
          ∃ j, (u ++ [i] ++ p)[o]? = some j ∧ j.op = .jez := by
        intro o member
        obtain ⟨lt, jump⟩ := before o member
        exact ⟨by omega, whole ▸ jump⟩
      rw [pairUp.eq_def]
      simp only [next]
      split
      · next opens =>
          rw [whole] at joined here ⊢
          refine ih (List.forall_mem_cons.mpr ⟨⟨by omega, i, here, opens⟩, earlier⟩) joined
      · split
        · next closes =>
            cases opened with
            | nil =>
                rw [whole] at joined ⊢
                exact ih (by simp) joined
            | cons o opened =>
                rw [List.forall_mem_cons] at before earlier
                have pair : Joins (u ++ i :: p) (o, u.length) :=
                  ⟨before.1.1, before.1.2, ⟨i, here, closes⟩⟩
                rw [whole] at joined pair ⊢
                exact ih earlier.2 (List.forall_mem_cons.mpr ⟨pair, joined⟩)
        · rw [whole] at joined ⊢
          exact ih earlier joined

/-- Jump pairs are pairs of jumps. -/
theorem joins_of_mem_jumpPairs {p : Program} {pair : Nat × Nat} (member : pair ∈ p.jumpPairs) :
    Joins p.toList pair :=
  joins_of_mem_pairUp (u := []) (by simp) (by simp) pair member

theorem alike_linkPair {p : Program} {pair : Nat × Nat} (joins : Joins p.toList pair) :
    Alike p.toList (p.linkPair pair).toList := by
  obtain ⟨_, ⟨o, foundO, opens⟩, ⟨e, foundE, closes⟩⟩ := joins
  have first : Alike p.toList (p.toList.modify pair.1 (·.reach (pair.2 - pair.1))) := by
    refine .modify fun i found => .reach ?_ _
    cases found.symm.trans foundO
    exact fun plain => plain.1 opens
  have second : Alike (p.toList.modify pair.1 (·.reach (pair.2 - pair.1)))
      ((p.toList.modify pair.1 (·.reach (pair.2 - pair.1))).modify pair.2
        (·.reach (pair.2 - pair.1))) := by
    refine .modify fun j found => .reach ?_ _
    obtain ⟨i, found', alike⟩ := first.getElem? found
    cases found'.symm.trans foundE
    exact fun plain => plain.2 (alike.op_eq.trans closes)
  rw [linkPair, Array.toList_modify, Array.toList_modify]
  exact first.trans second

theorem alike_foldl_linkPair {pairs : List (Nat × Nat)} {p : Program}
    (joined : ∀ pair ∈ pairs, Joins p.toList pair) :
    Alike p.toList (pairs.foldl linkPair p).toList := by
  induction pairs generalizing p with
  | nil => exact .refl _
  | cons pair pairs ih =>
      rw [List.forall_mem_cons] at joined
      have head := alike_linkPair joined.1
      exact head.trans (ih fun later member => (joined.2 later member).of_alike head)

/-- Linking changes distances of jumps and nothing else. -/
theorem alike_link (p : Program) : Alike p.toList p.link.toList :=
  alike_foldl_linkPair fun _ => joins_of_mem_jumpPairs

theorem jumpPairs_link (p : Program) : p.link.jumpPairs = p.jumpPairs :=
  p.alike_link.pairUp_eq 0 [] []

/-- What linking these pairs, one after the other, makes of the instruction at
    an index. -/
def settle : List (Nat × Nat) → Nat → Instruction → Instruction
  | [], _, i => i
  | pair :: pairs, k, i =>
    settle pairs k (if k = pair.1 ∨ k = pair.2 then i.reach (pair.2 - pair.1) else i)

theorem getElem?_linkPair (p : Program) (pair : Nat × Nat) (k : Nat) :
    (p.linkPair pair)[k]? =
      p[k]?.map fun i => if k = pair.1 ∨ k = pair.2 then i.reach (pair.2 - pair.1) else i := by
  simp only [linkPair, Array.getElem?_modify]
  cases p[k]? with
  | none => simp
  | some i =>
      by_cases first : pair.1 = k
      · by_cases second : pair.2 = k
        · simp [first, second, Instruction.reach]
        · simp [first, Ne.symm second, second, Instruction.reach]
      · by_cases second : pair.2 = k
        · simp [first, second, Instruction.reach]
        · simp [first, second, Ne.symm first, Ne.symm second]

theorem getElem?_foldl_linkPair (pairs : List (Nat × Nat)) (p : Program) (k : Nat) :
    (pairs.foldl linkPair p)[k]? = p[k]?.map (settle pairs k) := by
  induction pairs generalizing p with
  | nil => simp [settle]
  | cons pair pairs ih =>
      rw [List.foldl_cons, ih, getElem?_linkPair, Option.map_map]
      rfl

/-- Either nothing is written to an index, or the last distance written stays. -/
theorem settle_cases (pairs : List (Nat × Nat)) (k : Nat) :
    (∀ i, settle pairs k i = i) ∨ ∃ d, ∀ i, settle pairs k i = i.reach d := by
  induction pairs with
  | nil => exact .inl fun _ => rfl
  | cons pair pairs ih =>
      rcases ih with untouched | ⟨d, last⟩
      · by_cases named : k = pair.1 ∨ k = pair.2
        · exact .inr ⟨pair.2 - pair.1, fun i => by rw [settle, if_pos named, untouched]⟩
        · exact .inl fun i => by rw [settle, if_neg named, untouched]
      · refine .inr ⟨d, fun i => ?_⟩
        rw [settle, last]
        split <;> rfl

theorem settle_settle (pairs : List (Nat × Nat)) (k : Nat) (i : Instruction) :
    settle pairs k (settle pairs k i) = settle pairs k i := by
  rcases settle_cases pairs k with untouched | ⟨d, last⟩
  · rw [untouched]
  · rw [last, last]
    rfl

/-- A linked program is linked already. -/
theorem link_link (p : Program) : p.link.link = p.link := by
  apply Array.ext_getElem?
  intro k
  have once : p.link[k]? = p[k]?.map (settle p.jumpPairs k) := getElem?_foldl_linkPair ..
  have twice : p.link.link[k]? = p.link[k]?.map (settle p.link.jumpPairs k) :=
    getElem?_foldl_linkPair ..
  rw [twice, jumpPairs_link, once, Option.map_map]
  congr 1
  funext i
  exact settle_settle p.jumpPairs k i

end Program

end TapeLang
