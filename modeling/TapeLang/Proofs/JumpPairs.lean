import TapeLang.Proofs.Linking
import TapeLang.Proofs.Partners

/-! # Which jumps belong together

Written with its jumps as brackets, a program is a text, and two jumps belong together
if what stands between them is balanced. Pairing up jumps with a stack finds exactly
these pairs. A jump belongs to one pair at most, so no distance that linking sets is
overwritten, and a jump without partner keeps its operand.
-/

namespace TapeLang

/-- A jump as a bracket; what is no jump is blank. -/
def Instruction.bracket (i : Instruction) : UInt8 :=
  if i.op = .jez then 91 else if i.op = .jnz then 93 else 32

/-- A program with its jumps written as brackets. -/
def brackets (p : List Instruction) : Bytes :=
  p.map Instruction.bracket

/-- The brackets without partner, from the left. -/
def Bytes.strays (source : Bytes) : List Nat :=
  (List.range source.length).filter fun k =>
    (source[k]? = some 91 ∨ source[k]? = some 93) ∧
      ∀ j < source.length, ¬ source.Partners k j ∧ ¬ source.Partners j k

namespace Program

/-- The jumps with these indices belong together: they match like brackets. -/
def Partners (p : Program) (o e : Nat) : Prop :=
  (brackets p.toList).Partners o e

instance (p : Program) (o e : Nat) : Decidable (p.Partners o e) :=
  inferInstanceAs (Decidable (Bytes.Partners _ o e))

/-- The indices of the jumps without partner, from the left. -/
def strays (p : Program) : List Nat :=
  (brackets p.toList).strays

/-- The jumps without partner, with their operands. -/
def strayJumps (p : Program) : List Instruction :=
  p.strays.filterMap (p[·]?)

end Program

/-! ## Partners -/

namespace Bytes

variable {z : UInt8} {source : Bytes} {i j k i' j' : Nat}

theorem Partners.lt_length (partners : source.Partners i j) :
    i < source.length ∧ j < source.length :=
  ⟨(List.getElem?_eq_some_iff.mp partners.1).1, (List.getElem?_eq_some_iff.mp partners.2.1).1⟩

theorem mem_strays : k ∈ source.strays ↔ (source[k]? = some 91 ∨ source[k]? = some 93) ∧
    ∀ j, ¬ source.Partners k j ∧ ¬ source.Partners j k := by
  simp only [strays, List.mem_filter, List.mem_range, decide_eq_true_eq]
  constructor
  · rintro ⟨_, bracket, alone⟩
    refine ⟨bracket, fun j => ⟨fun partners => ?_, fun partners => ?_⟩⟩
    · exact (alone j partners.lt_length.2).1 partners
    · exact (alone j partners.lt_length.1).2 partners
  · rintro ⟨bracket, alone⟩
    refine ⟨?_, bracket, fun j _ => alone j⟩
    rcases bracket with bracket | bracket <;> exact (List.getElem?_eq_some_iff.mp bracket).1

/-- With one byte in front, partners are the partners there were, and a bracket in front with the
    first closing bracket that has no partner. -/
theorem partners_cons : Partners (z :: source) i j ↔
    (∃ i' j', i = i' + 1 ∧ j = j' + 1 ∧ Partners source i' j') ∨
      z = 91 ∧ i = 0 ∧ ∃ j', j = j' + 1 ∧ source.unopened[0]? = some j' := by
  cases j with
  | zero => simp [not_partners_zero]
  | succ j =>
      cases i with
      | succ i => simp [partners_succ]
      | zero =>
          have first : (source[j]? = some 93 ∧ Balanced (source.take j)) ↔
              source.unopened[0]? = some j := by
            constructor
            · rintro ⟨closing, balanced⟩
              exact (closes_iff closing).mp balanced
            · intro head
              have closing := closing_of_mem_unopened (List.mem_of_getElem? head)
              exact ⟨closing, (closes_iff closing).mpr head⟩
          simp [partners_front, first]

/-- Partners in a text that starts at index `k`. -/
def PartnersFrom (k : Nat) (source : Bytes) (a b : Nat) : Prop :=
  ∃ i j, source.Partners i j ∧ a = k + i ∧ b = k + j

theorem partnersFrom_cons {a b : Nat} : PartnersFrom k (z :: source) a b ↔
    PartnersFrom (k + 1) source a b ∨
      z = 91 ∧ a = k ∧ ∃ j, source.unopened[0]? = some j ∧ b = k + 1 + j := by
  constructor
  · rintro ⟨i, j, partners, rfl, rfl⟩
    rcases partners_cons.mp partners with ⟨i, j, rfl, rfl, inner⟩ | ⟨opening, rfl, j, rfl, head⟩
    · exact .inl ⟨i, j, inner, by omega, by omega⟩
    · exact .inr ⟨opening, rfl, j, head, by omega⟩
  · rintro (⟨i, j, inner, rfl, rfl⟩ | ⟨opening, rfl, j, head, rfl⟩)
    · exact ⟨i + 1, j + 1, partners_succ.mpr inner, by omega, by omega⟩
    · exact ⟨0, j + 1, partners_cons.mpr (.inr ⟨opening, rfl, j, rfl, head⟩), rfl, by omega⟩

/-- A bracket has one partner at most. -/
theorem Partners.unique (first : source.Partners i j) (second : source.Partners i' j')
    (shared : i = i' ∨ j = j') : i = i' ∧ j = j' := by
  induction source generalizing i j i' j' with
  | nil => simp [Partners] at first
  | cons z source ih =>
      rcases partners_cons.mp first with ⟨a, b, rfl, rfl, inner⟩ | ⟨_, rfl, b, rfl, head⟩
      · rcases partners_cons.mp second with ⟨a', b', rfl, rfl, inner'⟩ | ⟨_, rfl, b', rfl, head'⟩
        · obtain ⟨rfl, rfl⟩ := ih inner inner' (by omega)
          exact ⟨rfl, rfl⟩
        · have alone := ne_of_mem_unopened (List.mem_of_getElem? head') inner
          omega
      · rcases partners_cons.mp second with ⟨a', b', rfl, rfl, inner'⟩ | ⟨_, rfl, b', rfl, head'⟩
        · have alone := ne_of_mem_unopened (List.mem_of_getElem? head) inner'
          omega
        · cases head.symm.trans head'
          exact ⟨rfl, rfl⟩

theorem Partners.ne (first : source.Partners i j) (second : source.Partners i' j') : i ≠ j' := by
  rintro rfl
  cases first.1.symm.trans second.2.1

end Bytes

/-! ## Pairing up with a stack -/

section Pairing

variable {i : Instruction} {p : List Instruction} {opened : List Nat} {found : List (Nat × Nat)}
  {k a b : Nat}

theorem Instruction.bracket_plain (plain : i.IsPlain) : i.bracket = 32 := by
  rw [bracket, if_neg plain.1, if_neg plain.2]

theorem Instruction.bracket_eq_open_iff : i.bracket = 91 ↔ i.op = .jez := by
  unfold bracket
  split
  · simp [*]
  · split <;> simp [*]

theorem Instruction.bracket_eq_close_iff : i.bracket = 93 ↔ i.op = .jnz := by
  unfold bracket
  split
  · simp [*]
  · split <;> simp [*]

theorem length_brackets (p : List Instruction) : (brackets p).length = p.length :=
  List.length_map _

theorem getElem?_brackets {z : UInt8} :
    (brackets p)[k]? = some z ↔ ∃ i, p[k]? = some i ∧ i.bracket = z := by
  rw [brackets, List.getElem?_map, Option.map_eq_some_iff]

theorem Program.pairUp_unopened (closes : i.op = .jnz) :
    pairUp k [] found (i :: p) = pairUp (k + 1) [] found p := by
  rw [pairUp.eq_def]
  simp [closes]

/-- The stack finds pairs within what is read, and pairs of a jump on the stack with a jump that
    has no partner in what is read, the innermost with the first. -/
theorem Program.mem_pairUp : (a, b) ∈ pairUp k opened found p ↔ (a, b) ∈ found ∨
    (brackets p).PartnersFrom k a b ∨ (a, b) ∈ opened.zip ((brackets p).unopened.map (k + ·)) := by
  have shift (k : Nat) (indices : List Nat) :
      (indices.map (· + 1)).map (k + ·) = indices.map (k + 1 + ·) := by
    simp [Nat.add_assoc, Nat.add_comm 1]
  induction p generalizing k opened found with
  | nil => simp [pairUp, brackets, Bytes.PartnersFrom, Bytes.Partners, Bytes.unopened]
  | cons i p ih =>
      have whole : brackets (i :: p) = i.bracket :: brackets p := rfl
      rw [whole, Bytes.partnersFrom_cons]
      by_cases opens : i.op = .jez
      · rw [pairUp_open opens, Instruction.bracket_eq_open_iff.mpr opens, Bytes.unopened_open,
          shift]
        refine ih.trans ?_
        cases (brackets p).unopened with
        | nil => simp
        | cons e later => simp; tauto
      by_cases closes : i.op = .jnz
      · rw [Instruction.bracket_eq_close_iff.mpr closes, Bytes.unopened_close, List.map_cons, shift]
        cases opened with
        | nil =>
            rw [pairUp_unopened closes]
            refine ih.trans ?_
            simp
        | cons o opened =>
            rw [pairUp_close closes]
            refine ih.trans ?_
            simp; tauto
      · rw [pairUp_plain ⟨opens, closes⟩, Instruction.bracket_plain ⟨opens, closes⟩,
          Bytes.unopened_other (by decide) (by decide), shift]
        refine ih.trans ?_
        simp

theorem Program.mem_jumpPairs_iff {p : Program} : (a, b) ∈ p.jumpPairs ↔ p.Partners a b := by
  rw [jumpPairs, mem_pairUp]
  simp [Bytes.PartnersFrom, Partners]

end Pairing

/-! ## What linking writes -/

theorem Alike.brackets_eq {p q : List Instruction} (alike : Alike p q) :
    brackets q = brackets p := by
  induction alike with
  | nil => rfl
  | cons head _ ih =>
      simp only [brackets, List.map_cons, Instruction.bracket, head.op_eq] at ih ⊢
      rw [ih]

namespace Program

variable {p : Program} {pairs : List (Nat × Nat)} {pair : Nat × Nat} {k o e : Nat} {i : Instruction}

theorem brackets_link (p : Program) : brackets p.link.toList = brackets p.toList :=
  p.alike_link.brackets_eq

theorem getElem?_link (p : Program) (k : Nat) : p.link[k]? = p[k]?.map (settle p.jumpPairs k) :=
  getElem?_foldl_linkPair p.jumpPairs p k

theorem settle_of_unnamed (unnamed : ∀ pair ∈ pairs, k ≠ pair.1 ∧ k ≠ pair.2) :
    settle pairs k i = i := by
  induction pairs with
  | nil => rfl
  | cons pair pairs ih =>
      rw [List.forall_mem_cons] at unnamed
      rw [settle, if_neg (by simpa using unnamed.1), ih unnamed.2]

/-- If one pair alone names an index, its distance is written there. -/
theorem settle_of_named (member : pair ∈ pairs) (named : k = pair.1 ∨ k = pair.2)
    (only : ∀ other ∈ pairs, k = other.1 ∨ k = other.2 → other = pair) :
    settle pairs k i = i.reach (pair.2 - pair.1) := by
  induction pairs generalizing i with
  | nil => cases member
  | cons first pairs ih =>
      rw [List.forall_mem_cons] at only
      rw [settle]
      by_cases again : pair ∈ pairs
      · rw [ih again only.2]
        split <;> rfl
      · have here : first = pair := by
          rcases List.mem_cons.mp member with same | later
          · exact same.symm
          · exact absurd later again
        have unnamed : ∀ other ∈ pairs, k ≠ other.1 ∧ k ≠ other.2 := by
          intro other later
          rw [← not_or]
          intro twice
          exact again (only.2 other later twice ▸ later)
        rw [here, if_pos named, settle_of_unnamed unnamed]

theorem settle_of_partners (partners : p.Partners o e) (named : k = o ∨ k = e) :
    settle p.jumpPairs k i = i.reach (e - o) := by
  refine settle_of_named (mem_jumpPairs_iff.mpr partners) named ?_
  rintro ⟨o', e'⟩ member named'
  have partners' := mem_jumpPairs_iff.mp member
  have shared : o' = o ∨ e' = e := by
    -- No index opens one pair and closes another.
    have apart := partners'.ne partners
    have apart' := partners.ne partners'
    dsimp only at named'
    omega
  obtain ⟨rfl, rfl⟩ := partners'.unique partners shared
  rfl

/-- Linking sets both operands of a pair to the distance between the two. -/
theorem link_of_partners (partners : p.Partners o e) :
    ∃ i j, p.link[o]? = some i ∧ p.link[e]? = some j ∧ i.op = .jez ∧ j.op = .jnz ∧
      i.arg = (e - o).toUInt16 ∧ j.arg = (e - o).toUInt16 := by
  obtain ⟨i, found, opens⟩ := getElem?_brackets.mp partners.1
  obtain ⟨j, found', closes⟩ := getElem?_brackets.mp partners.2.1
  rw [Array.getElem?_toList] at found found'
  refine ⟨i.reach (e - o), j.reach (e - o), ?_, ?_, Instruction.bracket_eq_open_iff.mp opens,
    Instruction.bracket_eq_close_iff.mp closes, rfl, rfl⟩
  · rw [getElem?_link, found, Option.map_some, settle_of_partners partners (.inl rfl)]
  · rw [getElem?_link, found', Option.map_some, settle_of_partners partners (.inr rfl)]

theorem link_of_stray (stray : k ∈ p.strays) : p.link[k]? = p[k]? := by
  obtain ⟨_, alone⟩ := Bytes.mem_strays.mp stray
  have untouched : ∀ i, settle p.jumpPairs k i = i := by
    refine fun i => settle_of_unnamed fun ⟨o, e⟩ member => ⟨?_, ?_⟩
    · rintro rfl
      exact (alone e).1 (mem_jumpPairs_iff.mp member)
    · rintro rfl
      exact (alone o).2 (mem_jumpPairs_iff.mp member)
  rw [getElem?_link]
  cases p[k]? with
  | none => rfl
  | some i => exact congrArg some (untouched i)

end Program

end TapeLang
