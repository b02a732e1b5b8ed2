import TapeLang.Proofs.Folding

/-! # Which blocks can be lowered

Jumps reach only so far, so a loop with too long a body cannot be lowered. Bodies
are measured as they will stand in the program, already optimized if asked for.
Optimizing makes no body longer: what can be lowered without the optimizer can be
lowered with it. Commands without meaning apart, nothing else stands in the way.
-/

namespace TapeLang

/-- The command means something. -/
def Command.Known (c : Command) : Prop :=
  ∀ n, c ≠ .unknown n

namespace Block

/-- All commands of a block, at any depth, mean something. -/
def Known : Block → Prop
  | .empty => True
  | .command c rest => c.Known ∧ rest.Known
  | .loop body rest => body.Known ∧ rest.Known

/-- The first block is the body of a loop of the second, at some depth. -/
inductive IsBodyIn (b : Block) : Block → Prop where
  | here {rest : Block} : IsBodyIn b (.loop b rest)
  | inside {body rest : Block} (deeper : IsBodyIn b body) : IsBodyIn b (.loop body rest)
  | behind {body rest : Block} (later : IsBodyIn b rest) : IsBodyIn b (.loop body rest)
  | after {c : Command} {rest : Block} (later : IsBodyIn b rest) : IsBodyIn b (.command c rest)

/-- A block that can be lowered to a program short enough for a loop to enclose it. -/
def Fits (how : Lowering) (b : Block) : Prop :=
  ∃ l, b.lower how = .ok l ∧ l.code.size ≤ Lowered.maxBody

/-- Commands mean something, and the bodies of the loops at the top level fit. -/
def Lowerable (how : Lowering) : Block → Prop
  | .empty => True
  | .command c rest => c.Known ∧ rest.Lowerable how
  | .loop body rest => body.Fits how ∧ rest.Lowerable how

end Block

variable {how : Lowering} {b body : Block} {l l' : Lowered} {p : Pending}

/-! ## Lowering after something -/

/-- What was made before, then what is made of a block. -/
def Lowered.then (before l : Lowered) : Lowered :=
  ⟨before.code ++ l.code, before.tallies ++ l.tallies⟩

theorem Lowered.code_then_due (before l : Lowered) (due : List Instruction) :
    (before.then l).code ++ due = before.code ++ (l.code ++ due) := by
  apply Array.ext'
  simp [Lowered.then]

theorem Lowered.then_due (before l : Lowered) (due : List Instruction) :
    (⟨(before.then l).code ++ due, (before.then l).tallies⟩ : Lowered) =
      before.then ⟨l.code ++ due, l.tallies⟩ := by
  rw [code_then_due]
  rfl

theorem Lowered.polish_then (tallies : List Peephole.Tally) (l : Lowered) :
    (Lowered.then ⟨#[], tallies⟩ l).polish how = .then ⟨#[], tallies⟩ (l.polish how) := by
  unfold polish
  split
  · simp only [Lowered.then, Array.empty_append, List.append_assoc]
  · rfl

theorem Lowered.enclose_then (before : Lowered) (code : Array Instruction) (body : Lowered) :
    enclose (before.code ++ code) (.then ⟨#[], before.tallies⟩ body) =
      (enclose code body).map before.then := by
  unfold enclose
  simp only [Lowered.then, Array.empty_append]
  split
  · rfl
  · have whole : ∀ d : UInt16, ((before.code ++ code).push (.jez d) ++ body.code).push (.jnz d) =
        before.code ++ (code.push (.jez d) ++ body.code).push (.jnz d) := by
      intro d
      apply Array.ext'
      simp
    rw [whole]
    rfl

/-- Lowering leaves in front what was there before, and does not look at it. -/
theorem Block.lowerAfter_then (before l : Lowered) (p : Pending) (b : Block) :
    b.lowerAfter how (before.then l) p = (b.lowerAfter how l p).map before.then := by
  induction b generalizing before l p with
  | empty => exact congrArg Except.ok (Lowered.then_due before l p.emit)
  | command c rest ih =>
      rw [lowerAfter, lowerAfter]
      cases p.take c with
      | error e => rfl
      | ok due =>
          dsimp only
          rw [Lowered.then_due, ih]
  | loop body rest ihBody ihRest =>
      have inner := ihBody ⟨#[], before.tallies⟩ ⟨#[], l.tallies⟩ .idle
      have tallies : (⟨#[], (before.then l).tallies⟩ : Lowered) =
          .then ⟨#[], before.tallies⟩ ⟨#[], l.tallies⟩ := by
        simp [Lowered.then]
      rw [lowerAfter, lowerAfter, tallies, inner, Lowered.code_then_due]
      cases body.lowerAfter how ⟨#[], l.tallies⟩ .idle with
      | error e => rfl
      | ok r =>
          simp only [Except.map, Lowered.polish_then, Lowered.enclose_then]
          cases Lowered.enclose (l.code ++ p.emit) (r.polish how) with
          | error e => rfl
          | ok l' => exact ihRest before l' .idle

theorem Block.lowerAfter_tallies (tallies : List Peephole.Tally) (b : Block) :
    b.lowerAfter how ⟨#[], tallies⟩ p =
      (b.lowerAfter how ⟨#[], []⟩ p).map (.then ⟨#[], tallies⟩) := by
  have start : (⟨#[], tallies⟩ : Lowered) = .then ⟨#[], tallies⟩ ⟨#[], []⟩ := by
    simp [Lowered.then]
  conv => lhs; rw [start]
  exact lowerAfter_then _ _ p b

/-! ## Success -/

theorem Lowered.exists_enclose_iff (code : Array Instruction) :
    (∃ l', enclose code l = .ok l') ↔ l.code.size ≤ maxBody := by
  unfold enclose
  split
  · simp; omega
  · simp; omega

/-- Whether a block can be lowered is up to its commands and the bodies of its loops. -/
theorem Block.exists_lowerAfter_iff (before : Lowered) (p : Pending) :
    (∃ l, b.lowerAfter how before p = .ok l) ↔ b.Lowerable how := by
  induction b generalizing before p with
  | empty => simp [lowerAfter, Lowerable]
  | command c rest ih =>
      rw [lowerAfter, Lowerable]
      cases c with
      | unknown n => simp [Pending.take, Command.Known]
      | inc | dec | right | left | output | input | halt =>
          simp only [Pending.take, ih]
          simp [Command.Known]
  | loop body rest _ ih =>
      rw [lowerAfter, Lowerable, Fits, lower, lowerAfter_tallies]
      cases body.lowerAfter how ⟨#[], []⟩ .idle with
      | error e => simp [Except.map]
      | ok l =>
          have size : ((Lowered.then ⟨#[], before.tallies⟩ l).polish how).code.size =
              (l.polish how).code.size := by
            rw [Lowered.polish_then, Lowered.then, Array.empty_append]
          have fits : (∃ l₁, Except.ok (l.polish how) = Except.ok (ε := LowerError) l₁ ∧
              l₁.code.size ≤ Lowered.maxBody) ↔ (l.polish how).code.size ≤ Lowered.maxBody := by
            simp
          rw [fits, ← size, ← Lowered.exists_enclose_iff (before.code ++ p.emit)]
          simp only [Except.map]
          cases Lowered.enclose (before.code ++ p.emit)
              ((Lowered.then ⟨#[], before.tallies⟩ l).polish how) with
          | error e => simp
          | ok l' => simp [ih]

theorem Block.exists_lower_iff : (∃ l, b.lower how = .ok l) ↔ b.Lowerable how := by
  rw [← exists_lowerAfter_iff ⟨#[], []⟩ .idle, lower]
  cases b.lowerAfter how ⟨#[], []⟩ .idle with
  | error e => simp
  | ok l => simp

theorem Block.IsBodyIn.fits (inside : body.IsBodyIn b) (lowerable : b.Lowerable how) :
    body.Fits how := by
  induction inside with
  | here => exact lowerable.1
  | inside _ ih =>
      obtain ⟨l, ok, _⟩ := lowerable.1
      exact ih (exists_lower_iff.mp ⟨l, ok⟩)
  | behind _ ih => exact ih lowerable.2
  | after _ ih => exact ih lowerable.2

/-- If a block cannot be lowered though all of its commands mean something, then the innermost
    loop that stands in the way has a body that can be lowered and does not fit. -/
theorem Block.exists_too_large (known : b.Known) (fails : ¬ b.Lowerable how) :
    ∃ (body : Block) (l : Lowered),
      body.IsBodyIn b ∧ body.lower how = .ok l ∧ Lowered.maxBody < l.code.size := by
  induction b with
  | empty => exact absurd trivial fails
  | command c rest ih =>
      obtain ⟨body, l, inside, large⟩ := ih known.2 fun later => fails ⟨known.1, later⟩
      exact ⟨body, l, .after inside, large⟩
  | loop body rest ihBody ihRest =>
      by_cases inner : body.Lowerable how
      · obtain ⟨l, ok⟩ := exists_lower_iff.mpr inner
        by_cases large : Lowered.maxBody < l.code.size
        · exact ⟨body, l, .here, ok, large⟩
        · have fits : body.Fits how := ⟨l, ok, Nat.le_of_not_lt large⟩
          obtain ⟨b, l, inside, large⟩ := ihRest known.2 fun later => fails ⟨fits, later⟩
          exact ⟨b, l, .behind inside, large⟩
      · obtain ⟨b, l, inside, large⟩ := ihBody known.1 inner
        exact ⟨b, l, .inside inside, large⟩

/-! ## Sizes -/

theorem Block.size_lower_le (ok : b.lower how = .ok l) : l.code.size ≤ b.folded.length := by
  obtain ⟨c, linked, fuses, _⟩ := lower_spells ok
  rw [← Array.length_toList, linked.length_eq]
  exact fuses.shortens.length_le

theorem Block.size_lower_plain (off : how.peephole = false) (ok : b.lower how = .ok l) :
    l.code.size = b.folded.length := by
  obtain ⟨c, linked, _, literally⟩ := lower_spells ok
  rw [← Array.length_toList, linked.length_eq, literally off]

theorem Block.size_lower_le_plain {off : Lowering} (plain : off.peephole = false)
    (ok : b.lower off = .ok l) (ok' : b.lower how = .ok l') : l'.code.size ≤ l.code.size := by
  rw [size_lower_plain plain ok]
  exact size_lower_le ok'

/-- What can be lowered without the optimizer can be lowered. -/
theorem Block.Lowerable.of_plain {off : Lowering} (plain : off.peephole = false)
    (lowerable : b.Lowerable off) : b.Lowerable how := by
  induction b with
  | empty => trivial
  | command c rest ih => exact ⟨lowerable.1, ih lowerable.2⟩
  | loop body rest ihBody ihRest =>
      obtain ⟨⟨l, ok, fits⟩, later⟩ := lowerable
      obtain ⟨l', ok'⟩ := exists_lower_iff.mpr (ihBody (exists_lower_iff.mp ⟨l, ok⟩))
      have shorter := size_lower_le_plain plain ok ok'
      exact ⟨⟨l', ok', Nat.le_trans shorter fits⟩, ihRest later⟩

theorem Block.exists_lower_of_plain (how : Lowering) {off : Lowering} (plain : off.peephole = false)
    (ok : b.lower off = .ok l) : ∃ l', b.lower how = .ok l' :=
  exists_lower_iff.mpr ((exists_lower_iff.mp ⟨l, ok⟩).of_plain plain)

/-- The optimizer refuses no block that can be lowered without it, and makes no program longer.
    However a block is lowered, if its commands mean something this fails exactly if the body of
    some loop, lowered in the same way, is too long to be jumped over. -/
theorem Block.only_large_bodies_refused (b : Block) :
    (∀ fixpoint fixpoint' l, b.lower ⟨false, fixpoint⟩ = .ok l →
      ∃ l', b.lower ⟨true, fixpoint'⟩ = .ok l' ∧ l'.code.size ≤ l.code.size) ∧
    ∀ how, b.Known → ((∃ e, b.lower how = .error e) ↔
      ∃ (body : Block) (l : Lowered),
        body.IsBodyIn b ∧ body.lower how = .ok l ∧ 65534 < l.code.size) := by
  refine ⟨?_, ?_⟩
  · intro fixpoint fixpoint' l ok
    obtain ⟨l', ok'⟩ := exists_lower_of_plain ⟨true, fixpoint'⟩ rfl ok
    exact ⟨l', ok', size_lower_le_plain rfl ok ok'⟩
  · intro how known
    constructor
    · rintro ⟨e, failed⟩
      apply exists_too_large known
      intro lowerable
      obtain ⟨l, ok⟩ := exists_lower_iff.mpr lowerable
      cases failed.symm.trans ok
    · rintro ⟨body, l, inside, ok, large⟩
      cases result : b.lower how with
      | error e => exact ⟨e, rfl⟩
      | ok whole =>
          obtain ⟨l', ok', fits⟩ := inside.fits (exists_lower_iff.mp ⟨whole, result⟩)
          cases ok.symm.trans ok'
          exact absurd large (Nat.not_lt_of_le fits)

/-- So many outputs. -/
def Block.outputs : Nat → Block
  | 0 => .empty
  | n + 1 => .command .output (outputs n)

theorem Block.known_outputs (n : Nat) : (outputs n).Known := by
  induction n with
  | zero => trivial
  | succ n ih => exact ⟨by simp [Command.Known], ih⟩

theorem Block.exists_lower_outputs (fixpoint : Bool) (n : Nat) :
    ∃ l, (outputs n).lower ⟨false, fixpoint⟩ = .ok l ∧ l.code.size = n := by
  have lowerable : (outputs n).Lowerable ⟨false, fixpoint⟩ := by
    induction n with
    | zero => trivial
    | succ n ih => exact ⟨by simp [Command.Known], ih⟩
  have length : (outputs n).folded.length = n := by
    induction n with
    | zero => rfl
    | succ n ih => exact congrArg (· + 1) (ih lowerable.2)
  obtain ⟨l, ok⟩ := exists_lower_iff.mpr lowerable
  exact ⟨l, ok, (size_lower_plain rfl ok).trans length⟩

/-- The longest body that fits, and one that is longer. -/
theorem Block.only_large_bodies_refused_outputs :
    (∃ l l', (Block.loop (outputs 65534) .empty).lower ⟨false, true⟩ = .ok l ∧
      (Block.loop (outputs 65534) .empty).lower ⟨true, false⟩ = .ok l' ∧
      l'.code.size ≤ l.code.size) ∧
    (Block.loop (outputs 65535) .empty).Known ∧
    ∃ e, (Block.loop (outputs 65535) .empty).lower ⟨false, true⟩ = .error e := by
  refine ⟨?_, ⟨known_outputs _, trivial⟩, ?_⟩
  · obtain ⟨body, lowered, size⟩ := exists_lower_outputs true 65534
    obtain ⟨l, ok⟩ := exists_lower_iff.mpr
      (show (Block.loop (outputs 65534) .empty).Lowerable ⟨false, true⟩ from
        ⟨⟨body, lowered, Nat.le_of_eq size⟩, trivial⟩)
    obtain ⟨l', ok', shorter⟩ := (only_large_bodies_refused _).1 true false l ok
    exact ⟨l, l', ok, ok', shorter⟩
  · obtain ⟨body, lowered, size⟩ := exists_lower_outputs true 65535
    have refused := (only_large_bodies_refused (.loop (outputs 65535) .empty)).2 ⟨false, true⟩
      ⟨known_outputs _, trivial⟩
    exact refused.mpr ⟨_, body, .here, lowered, by omega⟩

end TapeLang
