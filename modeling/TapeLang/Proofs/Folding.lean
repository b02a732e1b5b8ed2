import TapeLang.Block.Lower
import TapeLang.Proofs.Optimizing
import TapeLang.Proofs.WalkRuns

/-! # Lowering on code

Lowering folds runs of commands and spells the result as a program. Folding is
said of code first: `Block.foldedAfter` is the code of a block after a run that
has not been emitted. It does what the code of the block does, command by
command, and nothing else. A program that a block is lowered to spells the folded
code, up to fusions.
-/

namespace TapeLang

variable {c c' : Code}

theorem Precongruence.line {R : Code → Code → Prop} (passes : Precongruence R)
    (is : List Instruction) (h : R c c') : R (.line is c) (.line is c') := by
  induction is with
  | nil => exact h
  | cons i is ih => exact passes.plain i ih

theorem Code.line_append (is js : List Instruction) (c : Code) :
    Code.line (is ++ js) c = .line is (.line js c) :=
  List.foldr_append

/-- Each code does whatever the other does. -/
def Agree (c c' : Code) : Prop :=
  ∀ f, Refines False f c c' ∧ Refines False f c' c

theorem Agree.precongruence : Precongruence Agree where
  refl c _ := ⟨.refl c, .refl c⟩
  trans first second f := ⟨(first f).1.trans (second f).1, (second f).2.trans (first f).2⟩
  plain i _ _ later f := ⟨.plain i (later f).1, .plain i (later f).2⟩
  loop inside later f := ⟨.loop (inside f).1 (later f).1, .loop (inside f).2 (later f).2⟩

/-! ## Runs of instructions -/

/-- One after the other, the instructions act on the tape alone, and this is
    what they do. -/
structure Amounts (is : List Instruction) (g : Tape → Tape) : Prop where
  onTape {t : Tape} (on : t.OnTape) : (g t).OnTape
  forth {f : Bool} {rest : Code} {s : State} (on : s.tape.OnTape) {n : Nat} {e : Upshot}
    (course : Course f (.line is rest) s n e) :
    (∃ n', Course f rest (s.onTape g) n' e) ∨ e.Silent s
  back {f : Bool} {rest : Code} {s : State} (on : s.tape.OnTape) :
    Reaches f (.line is rest) s rest (s.onTape g)

namespace Amounts

variable {is js : List Instruction} {i : Instruction} {g h : Tape → Tape}

theorem nil : Amounts [] fun t => t where
  onTape on := on
  forth _ _ _ course := .inl ⟨_, course⟩
  back _ n _ course := ⟨n, course⟩

theorem single (acts : i.Acts g) : Amounts [i] g where
  onTape {t} on := acts.onTape (s := ⟨t, {}⟩) on
  forth {f _ s} on n e course :=
    (Yields.plain (acts f s on) n e course).imp_left fun ⟨k, later, _⟩ => ⟨k, later⟩
  back {f _ s} on := Reaches.plain (acts f s on)

theorem append (first : Amounts is g) (second : Amounts js h) :
    Amounts (is ++ js) fun t => h (g t) where
  onTape on := second.onTape (first.onTape on)
  forth {f rest s} on n e course := by
    rw [Code.line_append] at course
    have on' : (s.onTape g).tape.OnTape := first.onTape on
    rcases first.forth on course with ⟨k, later⟩ | silent
    · rcases second.forth on' later with ⟨m, last⟩ | silent
      · exact .inl ⟨m, last⟩
      · exact .inr (silent.of_log_eq (State.log_onTape g s))
    · exact .inr silent
  back {f rest s} on := by
    have on' : (s.onTape g).tape.OnTape := first.onTape on
    rw [Code.line_append]
    exact (first.back on).trans (second.back on')

theorem congr (amounts : Amounts is g) (same : ∀ t : Tape, t.OnTape → g t = h t) :
    Amounts is h where
  onTape on := same _ on ▸ amounts.onTape on
  forth on _ _ course := State.onTape_congr (same _ on) ▸ amounts.forth on course
  back on := State.onTape_congr (same _ on) ▸ amounts.back on

theorem refines (first : Amounts is g) (second : Amounts js g) (f : Bool) (rest : Code) :
    Refines False f (.line is rest) (.line js rest) := by
  intro s on n e course
  rcases first.forth on course with ⟨k, later⟩ | silent
  · obtain ⟨m, course'⟩ := second.back on k e later
    exact ⟨m, e, course', .same e, False.elim⟩
  · exact ⟨0, .cut s, .cut, silent.below, False.elim⟩

/-- Runs that do the same may replace each other. -/
theorem agree (first : Amounts is g) (second : Amounts js g) (rest : Code) :
    Agree (.line is rest) (.line js rest) :=
  fun f => ⟨first.refines second f rest, second.refines first f rest⟩

end Amounts

/-! ## Folded runs of commands -/

namespace Pending

/-- What a run does to a tape. -/
def effect : Pending → Tape → Tape
  | .idle, t => t
  | .adding delta, t => t.bump delta
  | .moving displacement, t => t.shift displacement

theorem toNat_operand {distance : Nat} (fits : ¬ Instruction.maxOperand < distance) :
    distance.toUInt16.toNat = distance := by
  rw [Nat.toUInt16_eq, UInt16.toNat_ofNat_of_lt']
  simp only [Instruction.maxOperand, UInt16.size] at fits ⊢
  omega

theorem moves_amounts {move : UInt16 → Instruction} {direction : Int}
    (acts : ∀ n, (move n).Acts (·.shift (direction * n.toNat))) (distance : Nat) :
    Amounts (moves move distance) (·.shift (direction * distance)) := by
  fun_induction moves move distance with
  | case1 distance beyond ih =>
      have operand : Instruction.maxOperand.toUInt16.toNat = Instruction.maxOperand := rfl
      have first := Amounts.single (acts Instruction.maxOperand.toUInt16)
      rw [operand] at first
      clear operand
      -- with the number itself, unification would count down from it
      generalize Instruction.maxOperand = most at beyond ih first ⊢
      refine (first.append ih).congr fun t _ => ?_
      have sum : direction * most + direction * (distance - most : Nat) = direction * distance := by
        rw [← Int.mul_add, ← Int.natCast_add, Nat.add_sub_cancel' (Nat.le_of_lt beyond)]
      rw [Tape.shift_shift, sum]
  | case2 distance fits _ =>
      refine (Amounts.single (acts _)).congr fun t _ => ?_
      rw [toNat_operand fits]
  | case3 distance _ none =>
      have nothing : distance = 0 := by omega
      exact Amounts.nil.congr fun t on => by simp [nothing, Tape.shift_zero on]

/-- The instructions of a run do what the run does. -/
theorem emit_amounts (p : Pending) : Amounts p.emit p.effect := by
  cases p with
  | idle => exact .nil
  | adding delta =>
      rw [emit]
      split
      · next zero => exact Amounts.nil.congr fun t on => by rw [zero, effect, Tape.bump_zero on]
      · exact .single (Instruction.acts_add delta)
  | moving displacement =>
      have right : ∀ n, (Instruction.right n).Acts (·.shift (1 * n.toNat)) := by
        intro n
        rw [Int.one_mul]
        exact Instruction.acts_right n 0
      have left : ∀ n, (Instruction.left n).Acts (·.shift (-1 * n.toNat)) := by
        intro n
        rw [Int.neg_mul, Int.one_mul]
        exact Instruction.acts_left n 0
      rw [emit]
      split
      · refine (moves_amounts left displacement.natAbs).congr fun t _ => congrArg t.shift ?_
        omega
      · refine (moves_amounts right displacement.natAbs).congr fun t _ => congrArg t.shift ?_
        omega

theorem add_amounts (delta : UInt8) (p : Pending) :
    Amounts ((p.add delta).1 ++ (p.add delta).2.emit) fun t => (p.effect t).bump delta := by
  cases p with
  | adding d =>
      exact (emit_amounts (.adding (d + delta))).congr fun t on => (Tape.bump_bump on).symm
  | idle => exact (emit_amounts .idle).append (emit_amounts (.adding delta))
  | moving d => exact (emit_amounts (.moving d)).append (emit_amounts (.adding delta))

theorem move_amounts (displacement : Int) (p : Pending) :
    Amounts ((p.move displacement).1 ++ (p.move displacement).2.emit)
      fun t => (p.effect t).shift displacement := by
  cases p with
  | moving d =>
      exact (emit_amounts (.moving (d + displacement))).congr fun t _ => (Tape.shift_shift ..).symm
  | idle => exact (emit_amounts .idle).append (emit_amounts (.moving displacement))
  | adding d => exact (emit_amounts (.adding d)).append (emit_amounts (.moving displacement))

end Pending

/-- The code of a block after a run that has not been emitted. -/
def Block.foldedAfter : Pending → Block → Code
  | pending, .empty => .line pending.emit .done
  | pending, .command c rest =>
    match pending.take c with
    | .ok (due, pending) => .line due (foldedAfter pending rest)
    | .error _ => .line (pending.emit ++ [c.instruction]) (foldedAfter .idle rest)
  | pending, .loop body rest =>
    .line pending.emit (.loop (foldedAfter .idle body) (foldedAfter .idle rest))

/-- The code of a block with its runs folded. -/
def Block.folded (b : Block) : Code :=
  b.foldedAfter .idle

section Folded

variable {p p' : Pending} {due : List Instruction} {i : Instruction} {g h : Tape → Tape}
  {r r' : Code}

theorem Agree.take (acts : i.Acts h) (amounts : Amounts (due ++ p'.emit) fun t => h (p.effect t))
    (later : Agree (.line p'.emit r) r') : Agree (.line p.emit (.plain i r)) (.line due r') := by
  have first := (p.emit_amounts.append (.single acts)).agree amounts r
  rw [Code.line_append, Code.line_append] at first
  exact Agree.precongruence.trans first (Agree.precongruence.line due later)

/-- Folding runs of commands changes nothing. -/
theorem Block.agree_foldedAfter (p : Pending) (b : Block) :
    Agree (.line p.emit b.code) (b.foldedAfter p) := by
  induction b generalizing p with
  | empty => exact Agree.precongruence.refl _
  | loop body rest ihBody ihRest =>
      exact Agree.precongruence.line p.emit (Agree.precongruence.loop (ihBody .idle) (ihRest .idle))
  | command c rest ih =>
      have whole := Agree.precongruence.line (p.emit ++ [c.instruction]) (ih .idle)
      rw [Code.line_append] at whole
      cases c with
      | inc => exact Agree.take (Instruction.acts_add 1) (p.add_amounts 1) (ih _)
      | dec => exact Agree.take (Instruction.acts_add 255) (p.add_amounts 255) (ih _)
      | right => exact Agree.take (Instruction.acts_right 1 0) (p.move_amounts 1) (ih _)
      | left => exact Agree.take (Instruction.acts_left 1 0) (p.move_amounts (-1)) (ih _)
      | output | input | halt | unknown => exact whole

theorem Block.agree_folded (b : Block) : Agree b.code b.folded :=
  b.agree_foldedAfter .idle

end Folded

/-! ## Programs of blocks -/

/-- The instructions spell the code: up to fusions, if the optimizer was asked
    for, and else literally. -/
def Spells (how : Lowering) (c : Code) (q : List Instruction) : Prop :=
  ∃ c', Linked c' q ∧ Fuses c c' ∧ (how.peephole = false → c' = c)

section Lowering

open Instruction (IsPlain)

variable {how : Lowering} {b r : Code} {p p' : Pending} {q q' due : List Instruction}
  {c : Code} {l : Lowered}

theorem Layout.line {fits : Instruction → Nat → Prop} {is : List Instruction}
    (plain : ∀ i ∈ is, i.IsPlain) (later : Layout fits c q) :
    Layout fits (.line is c) (is ++ q) := by
  induction is with
  | nil => exact later
  | cons i is ih =>
      rw [List.forall_mem_cons] at plain
      exact .plain plain.1 (ih plain.2)

theorem Fuses.precongruence : Precongruence Fuses :=
  ⟨.refl, .trans, fun i _ _ => .plain i, .loop⟩

theorem Spells.line {is : List Instruction} (plain : ∀ i ∈ is, i.IsPlain)
    (later : Spells how c q) : Spells how (.line is c) (is ++ q) := by
  obtain ⟨c', linked, fuses, literally⟩ := later
  exact ⟨.line is c', linked.line plain, Fuses.precongruence.line is fuses,
    fun off => by rw [literally off]⟩

theorem Spells.loop {o e : Instruction} (opens : o.op = .jez) (inside : Spells how b q)
    (closes : e.op = .jnz) (later : Spells how r q') (out : o.arg.toNat = q.length + 1)
    (back : e.arg.toNat = q.length + 1) : Spells how (.loop b r) (o :: (q ++ e :: q')) := by
  obtain ⟨b', linked, fuses, literally⟩ := inside
  obtain ⟨r', linked', fuses', literally'⟩ := later
  rw [linked.length_eq] at out back
  exact ⟨.loop b' r', .loop opens linked closes linked' out back, .loop fuses fuses',
    fun off => by rw [literally off, literally' off]⟩

theorem Spells.polish (spells : Spells how c l.code.toList) :
    Spells how c (l.polish how).code.toList := by
  obtain ⟨c', linked, fuses, literally⟩ := spells
  unfold Lowered.polish
  split
  · next on =>
      obtain ⟨c'', more, linked'⟩ := Peephole.optimize_fuses how.fixpoint linked
      exact ⟨c'', linked', fuses.trans more, fun off => by simp [on] at off⟩
  · exact ⟨c', linked, fuses, literally⟩

theorem Lowered.toList_enclose {before : Array Instruction} {body : Lowered}
    (ok : enclose before body = .ok l) : ∃ d : UInt16, d.toNat = body.code.toList.length + 1 ∧
      l.code.toList = before.toList ++ .jez d :: (body.code.toList ++ [.jnz d]) := by
  unfold enclose at ok
  split at ok
  · cases ok
  · next fits =>
      cases ok
      refine ⟨(body.code.size + 1).toUInt16, ?_, by simp⟩
      rw [Nat.toUInt16_eq, UInt16.toNat_ofNat_of_lt', Array.length_toList]
      simp only [maxBody, Instruction.maxOperand] at fits
      simp only [UInt16.size]
      omega

/-- The instructions that commands are lowered to. -/
inductive Emitted : Instruction → Prop where
  | add {delta : UInt8} (changes : delta ≠ 0) : Emitted (.add delta)
  | right {n : UInt16} (moves : n ≠ 0) : Emitted (.right n)
  | left {n : UInt16} (moves : n ≠ 0) : Emitted (.left n)
  | write : Emitted .write
  | read : Emitted .read
  | halt : Emitted .halt

theorem Emitted.isPlain {i : Instruction} (emitted : Emitted i) : i.IsPlain := by
  cases emitted with
  | add | right | left => simp [IsPlain, Instruction.add, Instruction.right, Instruction.left]
  | write | read | halt => decide

theorem Pending.exists_of_mem_moves {move : UInt16 → Instruction} {distance : Nat} {i : Instruction}
    (member : i ∈ moves move distance) : ∃ n, n ≠ 0 ∧ i = move n := by
  fun_induction moves move distance with
  | case1 distance _ ih =>
      rcases List.mem_cons.mp member with rfl | later
      · exact ⟨_, by decide, rfl⟩
      · exact ih later
  | case2 distance fits some =>
      refine ⟨_, fun nothing => ?_, List.mem_singleton.mp member⟩
      have operand := congrArg UInt16.toNat nothing
      rw [toNat_operand fits, UInt16.toNat_zero] at operand
      omega
  | case3 => cases member

theorem Pending.emit_emitted (p : Pending) : ∀ i ∈ p.emit, Emitted i := by
  cases p with
  | idle => simp [emit]
  | adding delta =>
      rw [emit]
      split
      · simp
      · next changes => simpa using Emitted.add changes
  | moving displacement =>
      rw [emit]
      intro i member
      split at member
      · obtain ⟨n, moves, rfl⟩ := exists_of_mem_moves member
        exact .left moves
      · obtain ⟨n, moves, rfl⟩ := exists_of_mem_moves member
        exact .right moves

theorem Pending.take_emitted {command : Command} (taken : p.take command = .ok (due, p')) :
    ∀ i ∈ due, Emitted i := by
  have before := p.emit_emitted
  have last : ∀ i : Instruction, Emitted i → ∀ j ∈ p.emit ++ [i], Emitted j := by
    intro i emitted j member
    rw [List.mem_append, List.mem_singleton] at member
    rcases member with member | rfl
    · exact before j member
    · exact emitted
  cases command with
  | inc | dec =>
      cases p with
      | adding =>
          cases taken
          simp
      | idle | moving =>
          cases taken
          exact before
  | right | left =>
      cases p with
      | moving =>
          cases taken
          simp
      | idle | adding =>
          cases taken
          exact before
  | output =>
      cases taken
      exact last _ .write
  | input =>
      cases taken
      exact last _ .read
  | halt =>
      cases taken
      exact last _ .halt
  | unknown => cases taken

theorem Spells.emitted {is : List Instruction} (emitted : ∀ i ∈ is, Emitted i)
    (later : Spells how c q) : Spells how (.line is c) (is ++ q) :=
  later.line fun i member => (emitted i member).isPlain

/-- Lowering adds instructions that spell the folded code. -/
theorem Block.lowerAfter_spells {block : Block} {before : Lowered}
    (ok : block.lowerAfter how before p = .ok l) :
    ∃ q, l.code.toList = before.code.toList ++ q ∧ Spells how (block.foldedAfter p) q := by
  induction block generalizing before p l with
  | empty =>
      cases ok
      refine ⟨p.emit, by simp, ?_⟩
      have nothing : Spells how .done [] := ⟨.done, .done, .refl .done, fun _ => rfl⟩
      have spells := nothing.emitted p.emit_emitted
      rwa [List.append_nil] at spells
  | command command rest ih =>
      rw [lowerAfter] at ok
      rw [foldedAfter]
      split at ok
      · cases ok
      · next due p' taken =>
          obtain ⟨q, same, spells⟩ := ih ok
          rw [taken]
          refine ⟨due ++ q, by simp [same], spells.emitted (Pending.take_emitted taken)⟩
  | loop body rest ihBody ihRest =>
      rw [lowerAfter] at ok
      split at ok
      · cases ok
      · next lowered inner =>
          obtain ⟨qBody, sameBody, spellsBody⟩ := ihBody inner
          split at ok
          · cases ok
          · next enclosed outer =>
              obtain ⟨d, distance, sameLoop⟩ := Lowered.toList_enclose outer
              obtain ⟨q, same, spells⟩ := ihRest ok
              rw [List.nil_append] at sameBody
              rw [← sameBody] at spellsBody
              -- The body is polished on its own before it is enclosed.
              have loop := Spells.loop (o := .jez d) (e := .jnz d) rfl spellsBody.polish rfl spells
                distance distance
              exact ⟨_, by simp [same, sameLoop], loop.emitted p.emit_emitted⟩

/-- The program of a block spells its folded code. -/
theorem Block.lower_spells {block : Block} (ok : block.lower how = .ok l) :
    Spells how block.folded l.code.toList := by
  unfold lower at ok
  split at ok
  · cases ok
  · next lowered inner =>
      cases ok
      obtain ⟨q, same, spells⟩ := lowerAfter_spells inner
      rw [List.nil_append] at same
      rw [← same] at spells
      exact spells.polish

/-- If its code is known, a result is known up to its tallies. -/
theorem Lowered.exists_of_code {ε : Type} {x : Except ε Lowered} {code : Program}
    (h : x.map (·.code) = .ok code) : ∃ tallies, x = .ok ⟨code, tallies⟩ := by
  cases x with
  | error e => cases h
  | ok l =>
      cases h
      exact ⟨l.tallies, rfl⟩

end Lowering

end TapeLang
