import TapeLang.Proofs.BodySizes
import TapeLang.Proofs.Parsing

/-! # Runs of commands

Commands that count and commands that move come in runs, and a run is lowered as
a whole. What is made of a maximal run does not depend on where it stands: a block
falls apart at the ends of its runs, and the programs of the parts are put one after
the other. Counting comes down to one addition or none. Moving comes down to the
fewest moves with the same displacement.
-/

namespace TapeLang

/-- Commands that are lowered together if they follow each other. -/
inductive Family where
  /-- Increments and decrements. -/
  | adding
  /-- Moves to the right and to the left. -/
  | moving
  deriving Repr, DecidableEq

namespace Family

/-- The command that counts or moves up. -/
def forth : Family → Command
  | .adding => .inc
  | .moving => .right

/-- The command that undoes the other one. -/
def back : Family → Command
  | .adding => .dec
  | .moving => .left

/-- How much further forth than back the commands lead. -/
def net (f : Family) (cs : List Command) : Int :=
  cs.count f.forth - cs.count f.back

end Family

/-- The family of a command. -/
def Command.family? : Command → Option Family
  | .inc | .dec => some .adding
  | .right | .left => some .moving
  | .output | .input | .halt | .unknown _ => none

/-- The family of the commands in a run. -/
def Pending.family? : Pending → Option Family
  | .idle => none
  | .adding _ => some .adding
  | .moving _ => some .moving

namespace Block

/-- A block of commands. -/
def ofCommands (cs : List Command) : Block :=
  cs.foldr .command .empty

theorem ofCommands_cons (c : Command) (cs : List Command) :
    ofCommands (c :: cs) = .command c (ofCommands cs) :=
  rfl

/-- The family of the command that a block begins with. -/
def firstFamily : Block → Option Family
  | .empty => none
  | .command c _ => c.family?
  | .loop _ _ => none

/-- The family of the command that a block ends with. An empty block ends with what
    comes before it. -/
def lastFamily (before : Option Family) : Block → Option Family
  | .empty => before
  | .command c rest => rest.lastFamily c.family?
  | .loop _ rest => rest.lastFamily none

end Block

section Parts

variable {how : Lowering} {p q : Pending} {c : Command} {due : List Instruction} {a b : Block}
  {before l : Lowered} {f : Family}

/-! ## Blocks fall apart at the ends of runs -/

theorem Pending.family?_of_take (taken : p.take c = .ok (due, q)) : q.family? = c.family? := by
  cases c with
  | unknown => cases taken
  | output | input | halt =>
      cases taken
      rfl
  | inc | dec | right | left => cases p <;> cases taken <;> rfl

/-- A command of another family is taken once the instructions of the run are out. -/
theorem Pending.take_apart (apart : ∀ f, p.family? = some f → c.family? ≠ some f) :
    p.take c = (Pending.idle.take c).map fun taken => (p.emit ++ taken.1, taken.2) := by
  cases c with
  | unknown | output | input | halt => rfl
  | inc | dec =>
      cases p with
      | adding => exact absurd rfl (apart _ rfl)
      | idle => rfl
      | moving d => simp [take, add, emit, Except.map]
  | right | left =>
      cases p with
      | moving => exact absurd rfl (apart _ rfl)
      | idle => rfl
      | adding d => simp [take, move, emit, Except.map]

/-- If a block does not go on with a run, the instructions of the run are out before it. -/
theorem Block.lowerAfter_apart (apart : ∀ f, p.family? = some f → b.firstFamily ≠ some f) :
    b.lowerAfter how before p =
      b.lowerAfter how ⟨before.code ++ p.emit, before.tallies⟩ .idle := by
  have none : ∀ code : Array Instruction, code ++ Pending.idle.emit = code := fun code => by
    simp [Pending.emit]
  cases b with
  | empty => rw [lowerAfter, lowerAfter, none]
  | loop body rest => rw [lowerAfter, lowerAfter, none]
  | command c rest =>
      rw [lowerAfter, lowerAfter, Pending.take_apart apart]
      cases Pending.idle.take c with
      | error e => rfl
      | ok taken =>
          have order : before.code ++ (p.emit ++ taken.1) = before.code ++ p.emit ++ taken.1 := by
            apply Array.ext'
            simp
          simp only [Except.map, order]

/-- Where no run goes on, blocks are lowered one after the other. -/
theorem Block.lowerAfter_append
    (apart : ∀ f, a.lastFamily p.family? = some f → b.firstFamily ≠ some f) :
    (a.append b).lowerAfter how before p =
      (a.lowerAfter how before p).bind fun l => b.lowerAfter how l .idle := by
  induction a generalizing before p with
  | empty => exact lowerAfter_apart apart
  | command c rest ih =>
      rw [append, lowerAfter, lowerAfter]
      split
      · rfl
      · next due q taken =>
          apply ih
          rw [Pending.family?_of_take taken]
          exact apart
  | loop body rest _ ih =>
      rw [append, lowerAfter, lowerAfter]
      split
      · rfl
      · split
        · rfl
        · exact ih apart

theorem Block.lower_eq_lowerAfter (off : how.peephole = false) (b : Block) :
    b.lower how = b.lowerAfter how ⟨#[], []⟩ .idle := by
  rw [lower]
  cases b.lowerAfter how ⟨#[], []⟩ .idle with
  | error e => rfl
  | ok l => simp [Lowered.polish, off]

theorem Block.lower_append (off : how.peephole = false)
    (apart : ∀ f, a.lastFamily none = some f → b.firstFamily ≠ some f) :
    (a.append b).lower how = (a.lower how).bind fun l => (b.lower how).map l.then := by
  simp only [lower_eq_lowerAfter off]
  rw [lowerAfter_append (p := .idle) apart]
  congr 1
  funext l
  have start : l.then ⟨#[], []⟩ = l := by simp [Lowered.then]
  have later : b.lowerAfter how (l.then ⟨#[], []⟩) .idle =
      (b.lowerAfter how ⟨#[], []⟩ .idle).map l.then := lowerAfter_then l ⟨#[], []⟩ .idle b
  rwa [start] at later

end Parts

/-! ## Runs -/

section Runs

variable {how : Lowering} {f : Family} {c : Command} {cs : List Command} {before : Lowered}

/-- The run of so many commands of a family. -/
def Family.pending (d : Int) : Family → Pending
  | .adding => .adding (UInt8.ofInt d)
  | .moving => .moving d

theorem Family.net_cons (f : Family) (c : Command) (cs : List Command) :
    f.net (c :: cs) = f.net [c] + f.net cs := by
  simp only [net, List.count_cons, List.count_nil]
  omega

theorem Family.emit_pending_zero (f : Family) : (f.pending 0).emit = [] := by
  cases f <;> rfl

/-- A run takes the commands of its family. -/
theorem Family.take_pending (member : c.family? = some f) (d : Int) :
    (f.pending d).take c = .ok ([], f.pending (d + f.net [c])) := by
  cases c with
  | inc =>
      cases member
      exact congrArg (fun n => Except.ok ([], Pending.adding n)) (UInt8.ofInt_add d 1).symm
  | dec =>
      cases member
      have minus : UInt8.ofInt (-1) = 255 := by decide
      have down : UInt8.ofInt d + 255 = UInt8.ofInt (d + -1) := by rw [UInt8.ofInt_add, minus]
      exact congrArg (fun n => Except.ok ([], Pending.adding n)) down
  | right | left =>
      cases member
      rfl
  | output | input | halt | unknown => cases member

/-- A run that has not begun is as good as one without effect. -/
theorem Family.take_idle (member : c.family? = some f) :
    Pending.idle.take c = (f.pending 0).take c := by
  cases c <;> cases member <;> rfl

theorem Block.lowerAfter_pending (run : ∀ c ∈ cs, c.family? = some f) (d : Int) :
    (ofCommands cs).lowerAfter how before (f.pending d) =
      .ok ⟨before.code ++ (f.pending (d + f.net cs)).emit, before.tallies⟩ := by
  induction cs generalizing d before with
  | nil => simp [ofCommands, lowerAfter, Family.net]
  | cons c cs ih =>
      rw [List.forall_mem_cons] at run
      rw [ofCommands_cons, lowerAfter, Family.take_pending run.1]
      dsimp only
      rw [ih run.2, f.net_cons c cs, Int.add_assoc]
      simp

/-- A run is lowered to the instructions of its net effect. -/
theorem Block.lower_run (off : how.peephole = false) (run : ∀ c ∈ cs, c.family? = some f) :
    (ofCommands cs).lower how = .ok ⟨(f.pending (f.net cs)).emit.toArray, []⟩ := by
  rw [lower_eq_lowerAfter off]
  cases cs with
  | nil =>
      have nothing : f.net [] = 0 := by cases f <;> rfl
      rw [nothing, f.emit_pending_zero]
      rfl
  | cons c cs =>
      have begun : (ofCommands (c :: cs)).lowerAfter how ⟨#[], []⟩ (f.pending 0) = _ :=
        lowerAfter_pending run 0
      rw [ofCommands_cons, lowerAfter, ← Family.take_idle (run c (by simp)), Int.zero_add] at begun
      rw [ofCommands_cons, lowerAfter, begun]
      simp

end Runs

/-! ## The fewest moves -/

/-- How far an instruction moves to the right. -/
def Instruction.displacement (i : Instruction) : Int :=
  match i.op with
  | .right => i.arg.toNat
  | .left => -i.arg.toNat
  | _ => 0

/-- How far instructions move to the right in all. -/
def displacement (is : List Instruction) : Int :=
  is.foldr (fun i d => i.displacement + d) 0

/-- Moves by `d` in all, each of them in this direction, and no others do it in fewer. -/
structure ShortestMoves (d : Int) (is : List Instruction) : Prop where
  direction : ∀ i ∈ is, ∃ n : UInt16, n ≠ 0 ∧ (0 < d ∧ i = .right n ∨ d < 0 ∧ i = .left n)
  sum : displacement is = d
  shortest : ∀ js : List Instruction, (∀ j ∈ js, j.op = .right ∨ j.op = .left) →
    displacement js = d → is.length ≤ js.length

section Moves

variable {move : UInt16 → Instruction} {direction : Int} {is js : List Instruction}

theorem displacement_cons (i : Instruction) (is : List Instruction) :
    displacement (i :: is) = i.displacement + displacement is :=
  rfl

theorem natAbs_displacement_le (is : List Instruction) :
    (displacement is).natAbs ≤ Instruction.maxOperand * is.length := by
  induction is with
  | nil => simp [displacement]
  | cons i is ih =>
      have small : i.arg.toNat < 65536 := i.arg.toNat_lt
      have single : i.displacement.natAbs ≤ 65535 := by
        unfold Instruction.displacement
        split <;> omega
      rw [displacement_cons]
      simp only [Instruction.maxOperand, List.length_cons] at ih ⊢
      omega

theorem Pending.length_moves (move : UInt16 → Instruction) (distance : Nat) :
    (moves move distance).length = (distance + 65534) / 65535 := by
  fun_induction moves move distance with
  | case1 distance beyond ih =>
      rw [List.length_cons, ih]
      simp only [Instruction.maxOperand] at beyond ⊢
      omega
  | case2 distance fits some =>
      simp only [Instruction.maxOperand] at fits
      rw [List.length_singleton]
      omega
  | case3 distance _ none =>
      rw [List.length_nil]
      omega

theorem Pending.displacement_moves (each : ∀ n, (move n).displacement = direction * n.toNat)
    (distance : Nat) : displacement (moves move distance) = direction * distance := by
  fun_induction moves move distance with
  | case1 distance beyond ih =>
      have operand : Instruction.maxOperand.toUInt16.toNat = Instruction.maxOperand := rfl
      rw [displacement_cons, each, operand, ih, ← Int.mul_add, ← Int.natCast_add,
        Nat.add_sub_cancel' (Nat.le_of_lt beyond)]
  | case2 distance fits _ =>
      rw [displacement_cons, each, toNat_operand fits]
      exact Int.add_zero _
  | case3 distance _ none =>
      have nothing : distance = 0 := by omega
      rw [nothing, Int.natCast_zero, Int.mul_zero]
      rfl

/-- The instructions of a run of moves are as few as can be. -/
theorem Pending.emit_shortest (d : Int) : ShortestMoves d (Pending.moving d).emit := by
  have length : (Pending.moving d).emit.length = (d.natAbs + 65534) / 65535 := by
    rw [emit]
    split <;> exact length_moves _ _
  refine ⟨?_, ?_, ?_⟩
  · intro i member
    rw [emit] at member
    split at member
    · next negative =>
        obtain ⟨n, some, same⟩ := exists_of_mem_moves member
        exact ⟨n, some, .inr ⟨negative, same⟩⟩
    · next positive =>
        obtain ⟨n, some, same⟩ := exists_of_mem_moves member
        refine ⟨n, some, .inl ⟨?_, same⟩⟩
        -- Nothing is emitted for no displacement.
        have occupied := List.length_pos_of_mem member
        rw [length_moves] at occupied
        omega
  · have left : ∀ n, (Instruction.left n).displacement = -1 * n.toNat := by
      simp [Instruction.displacement, Instruction.left]
    have right : ∀ n, (Instruction.right n).displacement = 1 * n.toNat := by
      simp [Instruction.displacement, Instruction.right]
    rw [emit]
    split
    · rw [displacement_moves left]
      omega
    · rw [displacement_moves right]
      omega
  · intro js _ sum
    have reach := natAbs_displacement_le js
    rw [sum, Instruction.maxOperand] at reach
    rw [length]
    omega

end Moves

/-! ## Runs anywhere -/

/-- These instructions are made of a run wherever it is maximal: between blocks of which the first
    does not end and the second does not begin with a command of the family. What is made of these
    blocks stands before and behind the instructions. -/
def Block.RunLoweredTo (f : Family) (cs : List Command) (is : List Instruction) : Prop :=
  ∀ (fixpoint : Bool) (before after : Block), before.lastFamily none ≠ some f →
    after.firstFamily ≠ some f → ∀ l : Lowered,
    (before.append ((ofCommands cs).append after)).lower ⟨false, fixpoint⟩ = .ok l ↔
      ∃ l₁ l₂ : Lowered, before.lower ⟨false, fixpoint⟩ = .ok l₁ ∧
        after.lower ⟨false, fixpoint⟩ = .ok l₂ ∧ l = l₁.then (.then ⟨is.toArray, []⟩ l₂)

section Places

variable {how : Lowering} {f : Family} {cs : List Command} {body b : Block} {l done : Lowered}
  {p : Pending}

theorem Block.firstFamily_append_ofCommands (nonempty : cs ≠ [])
    (run : ∀ c ∈ cs, c.family? = some f) (after : Block) :
    ((ofCommands cs).append after).firstFamily = some f := by
  cases cs with
  | nil => exact absurd rfl nonempty
  | cons c cs => exact run c List.mem_cons_self

theorem Block.lastFamily_ofCommands (nonempty : cs ≠ []) (run : ∀ c ∈ cs, c.family? = some f)
    (before : Option Family) : (ofCommands cs).lastFamily before = some f := by
  induction cs generalizing before with
  | nil => exact absurd rfl nonempty
  | cons c cs ih =>
      rw [List.forall_mem_cons] at run
      cases cs with
      | nil => exact run.1
      | cons c' cs => exact ih (by simp) run.2 c.family?

theorem Block.run_loweredTo (nonempty : cs ≠ []) (run : ∀ c ∈ cs, c.family? = some f) :
    RunLoweredTo f cs (f.pending (f.net cs)).emit := by
  intro fixpoint before after ends begins l
  have first := firstFamily_append_ofCommands nonempty run after
  have last := lastFamily_ofCommands nonempty run none
  have front : ∀ g, before.lastFamily none = some g →
      ((ofCommands cs).append after).firstFamily ≠ some g := by
    intro g same
    rw [first, ← same]
    exact Ne.symm ends
  have back : ∀ g, (ofCommands cs).lastFamily none = some g → after.firstFamily ≠ some g := by
    intro g same
    rwa [← same, last]
  rw [lower_append rfl front, lower_append rfl back, lower_run rfl run]
  cases before.lower ⟨false, fixpoint⟩ with
  | error e => simp [Except.bind]
  | ok l₁ =>
      cases after.lower ⟨false, fixpoint⟩ with
      | error e => simp [Except.bind, Except.map]
      | ok l₂ => simp [Except.bind, Except.map, eq_comm]

theorem Family.emit_adding (d : Int) : (Family.adding.pending d).emit =
    if d % 256 = 0 then [] else [.add (d % 256).toNat.toUInt8] := by
  have operand : UInt8.ofInt d = (d % 256).toNat.toUInt8 := rfl
  have zero : (d % 256).toNat.toUInt8 = 0 ↔ d % 256 = 0 := by
    rw [← UInt8.toNat_inj, Nat.toUInt8_eq, UInt8.toNat_ofNat', UInt8.toNat_zero]
    omega
  simp only [pending, Pending.emit, operand, zero]

theorem Block.exists_body_of_lowerAfter_loop {rest : Block} (off : how.peephole = false)
    (ok : (Block.loop body rest).lowerAfter how done p = .ok l) :
    ∃ (l' : Lowered) (d : UInt16) (u v : List Instruction), body.lower how = .ok l' ∧
      l.code.toList = u ++ .jez d :: l'.code.toList ++ .jnz d :: v := by
  rw [lowerAfter, lowerAfter_tallies, ← lower_eq_lowerAfter off] at ok
  cases inner : body.lower how with
  | error e => simp [inner, Except.map] at ok
  | ok l' =>
      simp only [inner, Except.map, Lowered.polish, off] at ok
      split at ok
      · cases ok
      · next enclosed outer =>
          obtain ⟨d, _, same⟩ := Lowered.toList_enclose outer
          obtain ⟨v, whole, _⟩ := lowerAfter_spells ok
          exact ⟨l', d, (done.code ++ p.emit).toList, v, rfl, by simp [whole, same, Lowered.then]⟩

/-- The program of the body of a loop stands between the jumps of the loop, at any depth. -/
theorem Block.IsBodyIn.enclosed (off : how.peephole = false) (inside : body.IsBodyIn b)
    (ok : b.lowerAfter how done p = .ok l) :
    ∃ (l' : Lowered) (d : UInt16) (u v : List Instruction), body.lower how = .ok l' ∧
      l.code.toList = u ++ .jez d :: l'.code.toList ++ .jnz d :: v := by
  induction inside generalizing done p l with
  | after later ih =>
      rw [lowerAfter] at ok
      split at ok
      · cases ok
      · exact ih ok
  | behind later ih =>
      rw [lowerAfter] at ok
      split at ok
      · cases ok
      · split at ok
        · cases ok
        · exact ih ok
  | here => exact exists_body_of_lowerAfter_loop off ok
  | inside deeper ih =>
      obtain ⟨outer, d, u, v, lowered, same⟩ := exists_body_of_lowerAfter_loop off ok
      rw [lower_eq_lowerAfter off] at lowered
      obtain ⟨l', d', u', v', ok', same'⟩ := ih lowered
      exact ⟨l', d', u ++ .jez d :: u', v' ++ .jnz d :: v, ok', by simp [same, same']⟩

end Places

/-- Without the optimizer, runs of commands are folded exactly, and into as few instructions as can
    be. A maximal run of increments and decrements becomes one addition of its net count modulo 256,
    or nothing if that is zero; a maximal run of moves becomes the shortest moves with its net
    displacement. Both hold in the bodies of loops, at any depth, whose programs stand unchanged
    between their jumps. -/
theorem Block.maximal_runs_folded :
    (∀ cs : List Command, cs ≠ [] → (∀ c ∈ cs, c.family? = some .adding) →
      RunLoweredTo .adding cs (if Family.adding.net cs % 256 = 0 then []
        else [.add (Family.adding.net cs % 256).toNat.toUInt8])) ∧
    (∀ cs : List Command, cs ≠ [] → (∀ c ∈ cs, c.family? = some .moving) →
      ∃ is, ShortestMoves (Family.moving.net cs) is ∧ RunLoweredTo .moving cs is) ∧
    ∀ (fixpoint : Bool) (body b : Block) (l : Lowered), body.IsBodyIn b →
      b.lower ⟨false, fixpoint⟩ = .ok l →
      ∃ (l' : Lowered) (d : UInt16) (u v : List Instruction),
        body.lower ⟨false, fixpoint⟩ = .ok l' ∧
        l.code.toList = u ++ .jez d :: l'.code.toList ++ .jnz d :: v := by
  refine ⟨?_, ?_, ?_⟩
  · intro cs nonempty run
    rw [← Family.emit_adding]
    exact run_loweredTo nonempty run
  · intro cs nonempty run
    exact ⟨_, Pending.emit_shortest _, run_loweredTo nonempty run⟩
  · intro fixpoint body b l inside ok
    rw [lower_eq_lowerAfter rfl] at ok
    exact inside.enclosed rfl ok

/-- Further right than one move reaches, between an output and a halt; and one increment and two
    decrements that end the body of a loop. -/
theorem Block.maximal_runs_folded_farRight :
    (∃ is, ShortestMoves 70000 is ∧ is.length ≤ 2 ∧
      ((ofCommands [.output]).append ((ofCommands (List.replicate 70000 .right)).append
        (ofCommands [.halt]))).lower ⟨false, true⟩ =
          .ok ⟨#[.write] ++ (is.toArray ++ #[.halt]), []⟩) ∧
    ((ofCommands [.left]).append ((ofCommands [.inc, .dec, .dec]).append .empty)).lower
      ⟨false, true⟩ = .ok ⟨#[.left 1, .add 255], []⟩ ∧
    ∃ (l' : Lowered) (d : UInt16) (u v : List Instruction),
      (ofCommands [.left, .inc, .dec, .dec]).lower ⟨false, true⟩ = .ok l' ∧
      [.jez 3, .left 1, .add 255, .jnz 3] = u ++ .jez d :: l'.code.toList ++ .jnz d :: v := by
  obtain ⟨adding, moving, bodies⟩ := maximal_runs_folded
  refine ⟨?_, ?_, ?_⟩
  · have net : Family.moving.net (List.replicate 70000 .right) = 70000 := by
      rw [Family.net, List.count_replicate, List.count_replicate]
      rfl
    have some : List.replicate 70000 Command.right ≠ [] :=
      fun none => absurd ((List.replicate_eq_nil_iff _).mp none) (by decide)
    obtain ⟨is, shortest, lowered⟩ := moving _ some fun c member => by
      rw [List.eq_of_mem_replicate member]
      rfl
    rw [net] at shortest
    refine ⟨is, shortest, shortest.shortest [.right 65535, .right 4465] (by decide) (by decide), ?_⟩
    exact (lowered true _ _ (by decide) (by decide) _).mpr ⟨_, _, rfl, rfl, rfl⟩
  · have counted := adding [.inc, .dec, .dec] (by decide) (by decide)
    exact (counted true _ _ (by decide) (by decide) _).mpr ⟨_, _, rfl, rfl, rfl⟩
  · exact bodies true _ (.loop (ofCommands [.left, .inc, .dec, .dec]) .empty) ⟨_, []⟩ .here rfl

end TapeLang
