import TapeLang.Peephole.Rule
import TapeLang.Proofs.Windows

/-! # Fusions on code

Each fusion rule replaces a window of code by one instruction. The instruction
does whatever the window does, with no more instructions. Read faithfully, it
also does nothing else: only where a cell would be poured onto itself does the
instruction end and the loop it stands for does not.
-/

namespace TapeLang

/-- A window at the front of code and what it is fused to. -/
inductive Code.Fusion : Code → Code → Prop where
  | clear {body : Instruction} {rest : Code}
      (known : body = .add 1 ∨ body = .add 255 ∨ body = .zero) :
      Code.Fusion (.loop (.plain body .done) rest) (.plain .zero rest)
  | zeroZero {rest : Code} : Code.Fusion (.plain .zero (.plain .zero rest)) (.plain .zero rest)
  | searchRight {n a : UInt16} {rest : Code} :
      Code.Fusion (.loop (.plain ⟨.right, n, a⟩ .done) rest) (.plain (.searchr n) rest)
  | searchLeft {n a : UInt16} {rest : Code} :
      Code.Fusion (.loop (.plain ⟨.left, n, a⟩ .done) rest) (.plain (.searchl n) rest)
  | takeGive {there back fused : Instruction} {rest : Code}
      (known : Peephole.fuseMove there back = some fused) :
      Code.Fusion (.loop (.plain (.add 255) (.plain there (.plain (.add 1) (.plain back .done)))) rest)
        (.plain fused rest)
  | giveTake {there back fused : Instruction} {rest : Code}
      (known : Peephole.fuseMove there back = some fused) :
      Code.Fusion (.loop (.plain there (.plain (.add 1) (.plain back (.plain (.add 255) .done)))) rest)
        (.plain fused rest)
  | zeroRight {rest : Code} :
      Code.Fusion (.plain .zero (.plain (.right 1) rest)) (.plain (.zeror 1) rest)
  | zeroLeft {rest : Code} :
      Code.Fusion (.plain .zero (.plain (.left 1) rest)) (.plain (.zerol 1) rest)
  | mergeRight {n m a b : UInt16} {rest : Code}
      (fits : n.toNat + m.toNat ≤ Instruction.maxOperand) :
      Code.Fusion (.plain ⟨.zeror, n, a⟩ (.plain ⟨.zeror, m, b⟩ rest)) (.plain (.zeror (n + m)) rest)
  | mergeLeft {n m a b : UInt16} {rest : Code}
      (fits : n.toNat + m.toNat ≤ Instruction.maxOperand) :
      Code.Fusion (.plain ⟨.zerol, n, a⟩ (.plain ⟨.zerol, m, b⟩ rest)) (.plain (.zerol (n + m)) rest)
  | mandel {x n q a b c : UInt16} {rest : Code} (sum : x.toNat + n.toNat = q.toNat) :
      Code.Fusion
        (.loop (.plain ⟨.right, x, a⟩ (.plain ⟨.amover, n, b⟩ (.plain ⟨.left, q, c⟩ .done))) rest)
        (.plain (.mandel x n) rest)

/-- The second code does whatever the first does. Read faithfully, the first
    does whatever the second does, too. -/
structure Fused (c c' : Code) : Prop where
  forth (f : Bool) : Refines True f c c'
  back : Refines False true c' c

variable {f : Bool} {c rest : Code} {i j : Instruction} {s : State} {g h : Tape → Tape}

/-- Faithfully or not, the instruction acts on the tape alone. -/
def Instruction.Acts (i : Instruction) (g : Tape → Tape) : Prop :=
  ∀ f s, s.tape.OnTape → i.execAs f s = (s.onTape g, .ok .next)

namespace Instruction

theorem acts_add (v : UInt8) : (add v).Acts (·.bump v) := by
  intro f s on
  have act := exec_add v.toUInt16 0 on
  rw [UInt8.toUInt8_toUInt16] at act
  exact (Harmless.execAs (by simp [Harmless, add]) f s).trans act

theorem acts_right (n m : UInt16) : Acts ⟨.right, n, m⟩ (·.shift n.toNat) := by
  intro f s on
  rw [Harmless.execAs (by simp [Harmless]), exec_right _ _ on]

theorem acts_left (n m : UInt16) : Acts ⟨.left, n, m⟩ (·.shift (-n.toNat)) := by
  intro f s on
  rw [Harmless.execAs (by simp [Harmless]), exec_left _ _ on]

theorem acts_zero : zero.Acts (·.setCell 0) := by
  intro f s on
  exact (Harmless.execAs (by simp [Harmless, zero]) f s).trans (exec_zero 0 0 on)

theorem acts_zeror (n m : UInt16) : Acts ⟨.zeror, n, m⟩ (·.sweep 1 n.toNat) := by
  intro f s on
  rw [Harmless.execAs (by simp [Harmless]), exec_zeror _ _ on]

theorem acts_zerol (n m : UInt16) : Acts ⟨.zerol, n, m⟩ (·.sweep (-1) n.toNat) := by
  intro f s on
  rw [Harmless.execAs (by simp [Harmless]), exec_zerol _ _ on]

theorem Acts.onTape (acts : i.Acts g) (on : s.tape.OnTape) : (g s.tape).OnTape :=
  onTape_of_execAs (acts true s on) on

end Instruction

section Straight

theorem Works.done : Works f .done (fun t => t) :=
  fun _ on => ⟨on, Passes.done⟩

theorem Works.plain (acts : i.Acts g) (later : Works f c h) :
    Works f (.plain i c) (fun t => h (g t)) := by
  intro s on
  obtain ⟨on', passes⟩ := later (s.onTape g) (acts.onTape on)
  exact ⟨on', Passes.plain (acts f s on) rfl passes⟩

theorem Works.congr (works : Works f c g) (same : ∀ t : Tape, t.OnTape → g t = h t) :
    Works f c h := by
  intro s on
  obtain ⟨on', passes⟩ := works s on
  rw [State.onTape_congr (same s.tape on)] at passes
  exact ⟨same s.tape on ▸ on', passes⟩

variable {a b : Instruction} {k : Tape → Tape}

/-- Two instructions in a row and one that does the work of both. -/
theorem Fused.pair (ha : a.Acts g) (hb : b.Acts h) (hj : j.Acts k)
    (same : ∀ t : Tape, t.OnTape → k t = h (g t)) :
    Fused (.plain a (.plain b rest)) (.plain j rest) := by
  have second : ∀ (f : Bool) (s : State), s.tape.OnTape →
      b.execAs f (s.onTape g) = (s.onTape k, .ok .next) := by
    intro f s on
    have both : s.onTape k = (s.onTape g).onTape h :=
      State.onTape_congr (g := fun t => h (g t)) (same s.tape on)
    rw [hb f (s.onTape g) (ha.onTape on), both]
  constructor
  · exact fun f => Refines.of_yields fun s on => .inl ⟨_, hj f s on,
      (Yields.plain (ha f s on)).trans (Yields.plain (second f s on)) (State.log_onTape ..)⟩
  · exact Refines.of_reaches fun s on => .inl ⟨_, hj true s on,
      (Reaches.plain (ha true s on)).trans (Reaches.plain (second true s on))⟩

end Straight

section Counting

/-- A loop that only changes the current cell, and ends at zero, clears it. -/
theorem Fused.clear (acts : i.Acts g) (round : ∀ t : Tape, (g t).setCell 0 = t.setCell 0)
    (left : Tape → Nat) (fewer : ∀ t : Tape, t.OnTape → t.cell ≠ 0 → left (g t) < left t) :
    Fused (.loop (.plain i .done) rest) (.plain .zero rest) := by
  have works : ∀ f, Works f (.plain i .done) g :=
    fun f => Works.plain (h := fun t => t) acts Works.done
  have last : ∀ t : Tape, t.OnTape → t.cell = 0 → t.setCell 0 = t := by
    intro t on zero
    exact (congrArg t.setCell zero.symm).trans (Tape.setCell_cell on)
  have round' : ∀ t : Tape, t.OnTape → t.cell ≠ 0 → (g t).setCell 0 = t.setCell 0 :=
    fun t _ _ => round t
  constructor
  · exact fun f => Refines.of_yields fun s on =>
      .inl ⟨_, Instruction.acts_zero f s on, Yields.loop (works f) last round' on⟩
  · exact Refines.of_reaches fun s on =>
      .inl ⟨_, Instruction.acts_zero true s on, Reaches.loop (works true) last round'
        (fun _ => True) (fun _ _ => trivial) left (fun t on _ => fewer t on) on trivial⟩

theorem toNat_take_lt {v : UInt8} (nonzero : v ≠ 0) : (v + 255).toNat < v.toNat := by
  have : v.toNat ≠ 0 := fun h => nonzero (UInt8.toNat_inj.mp h)
  have := v.toNat_lt
  rw [UInt8.toNat_add]
  simp only [UInt8.toNat_ofNat]
  omega

theorem toNat_neg_give_lt {v : UInt8} (nonzero : v ≠ 0) : (-(v + 1)).toNat < (-v).toNat := by
  have shorter := toNat_take_lt (v := -v) (by simpa using nonzero)
  have same : -(v + 1) = -v + 255 := by grind
  rwa [same]

end Counting

section Moving

variable {there back : Instruction} {d : Int}

/-- The instruction pours the current cell to the one at distance `d`. -/
structure Instruction.PoursTo (i : Instruction) (d : Int) : Prop where
  exec {s : State} (on : s.tape.OnTape) :
    i.exec s = (s.onTape fun t => t.pour t.ptr (t.away d), .ok .next)
  pours_iff (s : State) : i.PoursOntoItself s ↔ s.tape.cell ≠ 0 ∧ (s.tape.size : Int) ∣ d

theorem Instruction.poursTo_amover (n : UInt16) : (amover n).PoursTo n.toNat where
  exec on := exec_amover n 0 on
  pours_iff s := by simp [PoursOntoItself, amover, Int.natCast_dvd_natCast]

theorem Instruction.poursTo_amovel (n : UInt16) : (amovel n).PoursTo (-n.toNat) where
  exec on := exec_amovel n 0 on
  pours_iff s := by simp [PoursOntoItself, amovel, Int.natCast_dvd_natCast]

/-- Fused moves go somewhere and come back, and their fusion pours there. -/
theorem fuseMove_eq_some (known : Peephole.fuseMove there back = some i) :
    ∃ d : Int, there.Acts (·.shift d) ∧ back.Acts (·.shift (-d)) ∧ i.PoursTo d := by
  unfold Peephole.fuseMove at known
  split at known
  · split at known
    · next n _ m _ same =>
      obtain rfl : n = m := by simp_all
      cases known
      exact ⟨n.toNat, Instruction.acts_right n _, Instruction.acts_left n _,
        Instruction.poursTo_amover n⟩
    · cases known
  · split at known
    · next n _ m _ same =>
      obtain rfl : n = m := by simp_all
      cases known
      refine ⟨-n.toNat, Instruction.acts_left n _, ?_, Instruction.poursTo_amovel n⟩
      rw [Int.neg_neg]
      exact Instruction.acts_right n _
    · cases known
  · cases known

/-- A loop that trades with the cell at distance `d` pours the current cell
    there. -/
theorem Fused.move (works : ∀ f, Works f c fun t => t.trade (t.away d)) (pours : i.PoursTo d) :
    Fused (.loop c rest) (.plain i rest) := by
  have last : ∀ t : Tape, t.OnTape → t.cell = 0 → t.pour t.ptr (t.away d) = t :=
    fun t on zero => Tape.pour_of_cell_eq_zero on (Tape.inRange_away d t) zero
  have round : ∀ t : Tape, t.OnTape → t.cell ≠ 0 →
      (t.trade (t.away d)).pour (t.trade (t.away d)).ptr ((t.trade (t.away d)).away d) =
        t.pour t.ptr (t.away d) :=
    fun t on _ => Tape.pour_away_trade d on
  have whole : ∀ f s, s.tape.OnTape → ¬ i.PoursOntoItself s →
      i.execAs f s = (s.onTape fun t => t.pour t.ptr (t.away d), .ok .next) :=
    fun f s on safe => (Instruction.execAs_of_not_pours safe).trans (pours.exec on)
  -- Where the cell is poured onto itself, a round of the loop changes nothing.
  have stuck : ∀ f s, s.tape.OnTape → i.PoursOntoItself s → Spins f (.loop c rest) s := by
    intro f s on onto
    obtain ⟨nonzero, turns⟩ := (pours.pours_iff s).mp onto
    have here : s.tape.trade (s.tape.away d) = s.tape := by
      rw [(Tape.away_eq_ptr_iff on d).mpr turns, Tape.trade_ptr on]
    have passes := (works f s on).2
    rw [State.onTape_eq_self (f := fun t => t.trade (t.away d)) here] at passes
    exact Spins.loop nonzero passes
  constructor
  · intro f
    apply Refines.of_yields
    intro s on
    by_cases onto : i.PoursOntoItself s
    · exact .inr (stuck f s on onto)
    · exact .inl ⟨_, whole f s on onto, Yields.loop (works f) last round on⟩
  · apply Refines.of_reaches
    intro s on
    by_cases onto : i.PoursOntoItself s
    · exact .inr (Instruction.execAs_of_pours onto)
    refine .inl ⟨_, whole true s on onto, ?_⟩
    by_cases zero : s.tape.cell = 0
    · rw [State.onTape_eq_self (f := fun t => t.pour t.ptr (t.away d)) (last s.tape on zero)]
      exact Reaches.skip zero
    · have short : ¬ (s.tape.size : Int) ∣ d :=
        fun turns => onto ((pours.pours_iff s).mpr ⟨zero, turns⟩)
      refine Reaches.loop (works true) last round (fun t => ¬ (t.size : Int) ∣ d) ?_
        (fun t => t.cell.toNat) ?_ on short
      · intro t short
        simpa only [Tape.size_trade] using short
      · intro t on short nonzero
        have apart : t.away d ≠ t.ptr := fun same => short ((Tape.away_eq_ptr_iff on d).mp same)
        rw [Tape.cell_trade on (Tape.inRange_away d t) apart]
        exact toNat_take_lt nonzero

end Moving

section Repeating

open Refines (Rounds)

theorem Fused.rounds (h : ∀ f, Rounds f c j) : Fused (.loop c rest) (.plain j rest) :=
  ⟨fun f => Refines.of_rounds (h f), Refines.of_rounds_back (h true)⟩

/-- The rounds of a loop with one instruction. -/
theorem rounds_single (acts : i.Acts g)
    (rounds : ∀ s, s.tape.OnTape → j.execAs f s =
      if s.tape.cell = 0 then (s, .ok .next) else (s.onTape g, .ok .again)) :
    Rounds f (.plain i .done) j := by
  intro s on
  have round := rounds s on
  by_cases zero : s.tape.cell = 0
  · exact .inl ⟨zero, by rw [round, if_pos zero]⟩
  · refine .inr (.inl ⟨zero, s.onTape g, by rw [round, if_neg zero], ?_⟩)
    exact Passes.plain (acts f s on) rfl Passes.done

theorem rounds_searchr (n a : UInt16) : Rounds f (.plain ⟨.right, n, a⟩ .done) (.searchr n) := by
  apply rounds_single (Instruction.acts_right n a)
  intro s on
  exact (Instruction.Harmless.execAs (by simp [Instruction.Harmless, Instruction.searchr]) f s).trans
    (Instruction.exec_searchr n 0 on)

theorem rounds_searchl (n a : UInt16) : Rounds f (.plain ⟨.left, n, a⟩ .done) (.searchl n) := by
  apply rounds_single (Instruction.acts_left n a)
  intro s on
  exact (Instruction.Harmless.execAs (by simp [Instruction.Harmless, Instruction.searchl]) f s).trans
    (Instruction.exec_searchl n 0 on)

/-- Within a round, the pour is onto itself where the round as a whole is. -/
theorem pours_mandel_iff {x n b : UInt16} (on : s.tape.OnTape) (nonzero : s.tape.cell ≠ 0) :
    (Instruction.mandel x n).PoursOntoItself s ↔
      Instruction.PoursOntoItself ⟨.amover, n, b⟩ (s.onTape (·.shift x.toNat)) := by
  have source : s.tape.rightOf s.tape.ptr (Instruction.mandel x n).distance = s.tape.away x.toNat :=
    Tape.rightOf_eq_away on (Instruction.toNat_le_maxSize x)
  have cell : (s.tape.shift x.toNat).cell = s.tape.peek (s.tape.away x.toNat) := rfl
  simp only [Instruction.PoursOntoItself, source, State.tape_onTape, cell, Tape.size_shift]
  simp only [Instruction.mandel, nonzero, reduceCtorEq, or_self, or_true, false_and, false_or,
    or_false, true_and, ne_eq, not_false_eq_true]
  exact And.comm

theorem rounds_mandel {x n q a b c : UInt16} (sum : x.toNat + n.toNat = q.toNat) :
    Rounds f (.plain ⟨.right, x, a⟩ (.plain ⟨.amover, n, b⟩ (.plain ⟨.left, q, c⟩ .done)))
      (.mandel x n) := by
  intro s on
  have out := Instruction.acts_right x a f s on
  have on' : (s.onTape (·.shift x.toNat)).tape.OnTape := Tape.onTape_shift _ _
  by_cases zero : s.tape.cell = 0
  · have safe : ¬ (Instruction.mandel x n).PoursOntoItself s := fun h => h.1 zero
    refine .inl ⟨zero, ?_⟩
    rw [Instruction.execAs_of_not_pours safe]
    exact (Instruction.exec_mandel x n on).trans (if_pos zero)
  have onto := pours_mandel_iff (x := x) (n := n) (b := b) on zero
  -- The diffusion stands still exactly where the move inside the loop does.
  by_cases stuck : f = true ∧ (Instruction.mandel x n).PoursOntoItself s
  · obtain ⟨rfl, pours⟩ := stuck
    refine .inr (.inr ⟨zero, Instruction.execAs_of_pours pours, ?_⟩)
    exact Spins.plain out rfl (Spins.again (Instruction.execAs_of_pours (onto.mp pours)))
  have whole : (Instruction.mandel x n).execAs f s = (Instruction.mandel x n).exec s := if_neg stuck
  have inner : Instruction.execAs f ⟨.amover, n, b⟩ (s.onTape (·.shift x.toNat)) =
      Instruction.exec ⟨.amover, n, b⟩ (s.onTape (·.shift x.toNat)) :=
    if_neg (fun h => stuck ⟨h.1, onto.mpr h.2⟩)
  refine .inr (.inl ⟨zero, _, whole.trans ((Instruction.exec_mandel x n on).trans (if_neg zero)), ?_⟩)
  have pour := inner.trans (Instruction.exec_amover n b on')
  have back := Instruction.acts_left q c f
    ((s.onTape (·.shift x.toNat)).onTape fun t => t.pour t.ptr (t.away n.toNat))
    ((Tape.onTape_pour ..).mpr on')
  have round : ((s.onTape (·.shift x.toNat)).onTape fun t => t.pour t.ptr (t.away n.toNat)).onTape
      (·.shift (-q.toNat)) = s.onTape fun t =>
        (t.pour (t.away x.toNat) (t.away (x.toNat + n.toNat))).shift (-n.toNat) := by
    rw [State.onTape_onTape, State.onTape_onTape]
    exact State.onTape_congr (Tape.pour_away x.toNat n.toNat q.toNat sum s.tape)
  rw [round] at back
  exact Passes.plain out (State.log_onTape ..) (Passes.plain pour (State.log_onTape ..)
    (Passes.plain back (by simp only [State.log_onTape]) Passes.done))

end Repeating

namespace Code.Fusion

variable {c c' : Code}

theorem fused_add_one : Fused (.loop (.plain (.add 1) .done) rest) (.plain .zero rest) := by
  apply Fused.clear (Instruction.acts_add 1) (fun _ => Tape.setCell_bump) fun t => (-t.cell).toNat
  intro t on nonzero
  rw [Tape.cell_bump on]
  exact toNat_neg_give_lt nonzero

theorem fused_take_one : Fused (.loop (.plain (.add 255) .done) rest) (.plain .zero rest) := by
  apply Fused.clear (Instruction.acts_add 255) (fun _ => Tape.setCell_bump) fun t => t.cell.toNat
  intro t on nonzero
  rw [Tape.cell_bump on]
  exact toNat_take_lt nonzero

theorem fused_zero_loop : Fused (.loop (.plain .zero .done) rest) (.plain .zero rest) := by
  apply Fused.clear Instruction.acts_zero (fun _ => Tape.setCell_setCell) fun t => t.cell.toNat
  intro t on nonzero
  rw [Tape.cell_setCell on]
  exact Nat.pos_of_ne_zero fun h => nonzero (UInt8.toNat_inj.mp h)

theorem toNat_add_of_fits {n m : UInt16} (fits : n.toNat + m.toNat ≤ Instruction.maxOperand) :
    (n + m).toNat = n.toNat + m.toNat := by
  rw [UInt16.toNat_add]
  simp only [Instruction.maxOperand] at fits
  omega

theorem fused_merge {d : Int} {a b i : Instruction} {n m k : Nat} (ha : a.Acts (·.sweep d n))
    (hb : b.Acts (·.sweep d m)) (hi : i.Acts (·.sweep d k)) (sum : n + m = k) :
    Fused (.plain a (.plain b rest)) (.plain i rest) := by
  subst sum
  exact Fused.pair ha hb hi fun t _ => Tape.sweep_add d n m t

/-- Every fusion does what its window does. -/
theorem fused (h : Fusion c c') : Fused c c' := by
  cases h with
  | clear known =>
      rcases known with rfl | rfl | rfl
      · exact fused_add_one
      · exact fused_take_one
      · exact fused_zero_loop
  | zeroZero =>
      exact Fused.pair Instruction.acts_zero Instruction.acts_zero Instruction.acts_zero
        fun _ _ => Tape.setCell_setCell.symm
  | searchRight => exact Fused.rounds fun _ => rounds_searchr _ _
  | searchLeft => exact Fused.rounds fun _ => rounds_searchl _ _
  | takeGive known =>
      obtain ⟨d, there, back, pours⟩ := fuseMove_eq_some known
      refine Fused.move (fun f => ?_) pours
      exact ((Works.plain (Instruction.acts_add 255) (Works.plain there
        (Works.plain (Instruction.acts_add 1) (Works.plain back Works.done)))).congr
          fun t on => Tape.take_then_give on d)
  | giveTake known =>
      obtain ⟨d, there, back, pours⟩ := fuseMove_eq_some known
      refine Fused.move (fun f => ?_) pours
      exact ((Works.plain there (Works.plain (Instruction.acts_add 1) (Works.plain back
        (Works.plain (Instruction.acts_add 255) Works.done)))).congr
          fun t on => Tape.give_then_take on d)
  | zeroRight =>
      exact Fused.pair Instruction.acts_zero (Instruction.acts_right 1 0) (Instruction.acts_zeror 1 0)
        fun _ _ => rfl
  | zeroLeft =>
      exact Fused.pair Instruction.acts_zero (Instruction.acts_left 1 0) (Instruction.acts_zerol 1 0)
        fun _ _ => rfl
  | mergeRight fits =>
      exact fused_merge (Instruction.acts_zeror _ _) (Instruction.acts_zeror _ _)
        (Instruction.acts_zeror _ _) (toNat_add_of_fits fits).symm
  | mergeLeft fits =>
      exact fused_merge (Instruction.acts_zerol _ _) (Instruction.acts_zerol _ _)
        (Instruction.acts_zerol _ _) (toNat_add_of_fits fits).symm
  | mandel sum => exact Fused.rounds fun _ => rounds_mandel sum

end Code.Fusion

end TapeLang
