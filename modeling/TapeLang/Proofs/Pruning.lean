import Mathlib.Data.List.Sort
import TapeLang.Proofs.JumpPairs
import TapeLang.Proofs.Optimizing

/-! # Optimizing removes pairs of jumps, and nothing else of them

The jumps of a window that is fused belong together within the window, so what stands
around it does not notice that they are gone: all other jumps belong together as before.
`Prunes` says this of a program and what is left of it, in terms of where the rest stood
before. It holds of one fusion and passes on to any number of them. Jumps need not match
for this.
-/

namespace TapeLang

/-! ## Texts with a window replaced -/

theorem getElem?_append_add {α : Type} (x y : List α) (j : Nat) :
    (x ++ y)[x.length + j]? = y[j]? := by
  rw [List.getElem?_append_right (Nat.le_add_right ..), Nat.add_sub_cancel_left]

/-- Indices behind `n`, moved on by `w`. -/
def leap (n w k : Nat) : Nat :=
  if n < k then k + w else k

@[simp] theorem leap_zero (n w : Nat) : leap n w 0 = 0 := by
  simp [leap]

@[simp] theorem leap_succ_succ (n w k : Nat) : leap (n + 1) w (k + 1) = leap n w k + 1 := by
  unfold leap
  split <;> split <;> omega

theorem leap_of_lt {n k : Nat} (w : Nat) (lt : n < k) : leap n w k = k + w :=
  if_pos lt

theorem leap_of_le {n k : Nat} (w : Nat) (le : k ≤ n) : leap n w k = k :=
  if_neg (Nat.not_lt_of_le le)

theorem leap_front {n w : Nat} (size : n = w + 1) (k : Nat) : leap 0 w (k + 1) = n + k := by
  rw [leap_of_lt w (Nat.succ_pos k)]
  omega

theorem strictMono_leap (n w : Nat) : StrictMono (leap n w) := by
  intro a b less
  unfold leap
  split <;> split <;> omega

namespace Bytes

/-- Its brackets close within it: what stands around it does not notice them. -/
def Transparent (window : Bytes) : Prop :=
  ∀ k text, Closes k (window ++ text) ↔ Closes k text

variable {window x y : Bytes} {z : UInt8} {a b k w : Nat}

theorem transparent_of_blank (blank : ∀ z ∈ window, z ≠ 91 ∧ z ≠ 93) : window.Transparent := by
  intro k text
  induction window with
  | nil => rfl
  | cons z window ih =>
      rw [List.forall_mem_cons] at blank
      rw [List.cons_append, closes_other blank.1.1 blank.1.2, ih blank.2]

theorem Transparent.loop (inside : window.Transparent) : Transparent (91 :: (window ++ [93])) := by
  intro k text
  rw [List.cons_append, closes_open, List.append_assoc, inside, List.singleton_append, closes_close]

theorem Transparent.balanced (transparent : window.Transparent) : window.Balanced := by
  have closes := (transparent 0 []).mpr (closes_nil.mpr rfl)
  rwa [List.append_nil] at closes

theorem Transparent.not_close (transparent : Transparent (z :: window)) : z ≠ 93 := by
  rintro rfl
  exact not_closes_close transparent.balanced

/-- The end of a window belongs to its beginning. -/
theorem Transparent.not_closes (transparent : Transparent (91 :: window)) (text : Bytes) :
    ¬ Closes 0 (window ++ text) := by
  intro closes
  have whole := (closes_open (k := 0)).mp transparent.balanced
  have part := closes.1 window (by simp)
  have all := whole.2
  omega

theorem partners_append (x : Bytes) :
    Partners (x ++ y) (x.length + a) (x.length + b) ↔ Partners y a b := by
  induction x with
  | nil => simp
  | cons z x ih =>
      rw [List.cons_append, List.length_cons, Nat.add_right_comm, Nat.add_right_comm _ 1 b,
        partners_succ, ih]

theorem Partners.append (partners : Partners x a b) (y : Bytes) : Partners (x ++ y) a b := by
  obtain ⟨opening, closing, less, balanced⟩ := partners
  have inside := (List.getElem?_eq_some_iff.mp closing).1
  refine ⟨?_, ?_, less, ?_⟩
  · rw [List.getElem?_append_left (by omega), opening]
  · rw [List.getElem?_append_left inside, closing]
  · rwa [List.take_append_of_le_length (by omega)]

/-- Whether a bracket ends what closes `k` brackets does not depend on a window before it. -/
theorem closing_replace (transparent : window.Transparent) (size : window.length = w + 1)
    (blank : z ≠ 91 ∧ z ≠ 93) :
    ((x ++ z :: y)[b]? = some 93 ∧ Closes k ((x ++ z :: y).take b)) ↔
      (x ++ (window ++ y))[leap x.length w b]? = some 93 ∧
        Closes k ((x ++ (window ++ y)).take (leap x.length w b)) := by
  induction x generalizing b k with
  | nil =>
      cases b with
      | zero =>
          cases window with
          | nil => cases size
          | cons c window => simp [blank.2, transparent.not_close]
      | succ b =>
          rw [List.length_nil, leap_front size, List.nil_append, List.nil_append,
            List.getElem?_cons_succ, List.take_succ_cons, closes_other blank.1 blank.2,
            List.take_length_add_append, getElem?_append_add]
          exact and_congr_right fun _ => (transparent k _).symm
  | cons c x ih =>
      cases b with
      | zero => simp
      | succ b =>
          rw [List.length_cons, leap_succ_succ]
          simp only [List.cons_append, List.getElem?_cons_succ, List.take_succ_cons]
          by_cases opens : c = 91
          · subst opens
            rw [closes_open, closes_open]
            exact ih
          by_cases closes : c = 93
          · subst closes
            cases k with
            | zero => simp [not_closes_close]
            | succ k =>
                rw [closes_close, closes_close]
                exact ih
          · rw [closes_other opens closes, closes_other opens closes]
            exact ih

/-- A window replaced by a blank makes no difference to the brackets around it. -/
theorem partners_replace (transparent : window.Transparent) (size : window.length = w + 1)
    (blank : z ≠ 91 ∧ z ≠ 93) : Partners (x ++ z :: y) a b ↔
      Partners (x ++ (window ++ y)) (leap x.length w a) (leap x.length w b) := by
  induction x generalizing a b with
  | nil =>
      cases b with
      | zero => simp [not_partners_zero]
      | succ b =>
          cases a with
          | succ a =>
              rw [List.length_nil, leap_front size, leap_front size]
              exact partners_succ.trans (partners_append window).symm
          | zero =>
              -- Neither the blank nor the first bracket of the window has a partner behind it.
              refine iff_of_false (fun partners => blank.1 (partners_front.mp partners).1) ?_
              cases window with
              | nil => cases size
              | cons c window =>
                  rw [List.length_nil, leap_zero, leap_front size, List.nil_append,
                    List.cons_append, List.length_cons, Nat.add_right_comm, partners_front,
                    List.take_length_add_append]
                  rintro ⟨rfl, _, balanced⟩
                  exact transparent.not_closes _ balanced
  | cons c x ih =>
      cases b with
      | zero => simp [not_partners_zero]
      | succ b =>
          rw [List.length_cons, leap_succ_succ]
          cases a with
          | succ a =>
              rw [leap_succ_succ]
              exact partners_succ.trans (ih.trans partners_succ.symm)
          | zero =>
              rw [leap_zero, List.cons_append, List.cons_append, partners_front, partners_front]
              exact and_congr_right fun _ => closing_replace (k := 0) transparent size blank

end Bytes

/-! ## Programs with pairs of jumps removed -/

/-- There is a jump at this index. -/
def JumpAt (p : List Instruction) (k : Nat) : Prop :=
  ∃ i, p[k]? = some i ∧ ¬ i.IsPlain

/-- The second program is what is left of the first if pairs of jumps are removed. Where its
    instructions stood before is up to `f`. -/
structure Prunes (p q : List Instruction) (f : Nat → Nat) : Prop where
  mono : StrictMono f
  /-- A jump that is left stood in the program before. -/
  kept : ∀ k, JumpAt q k → p[f k]? = q[k]?
  /-- Jumps belong together as they did before. -/
  partners : ∀ o e, (brackets q).Partners o e ↔ (brackets p).Partners (f o) (f e)
  /-- A jump that is gone had a partner that is gone as well. -/
  gone : ∀ m, JumpAt p m → (∃ k, JumpAt q k ∧ f k = m) ∨
    ∃ o e, (brackets p).Partners o e ∧ (m = o ∨ m = e) ∧ ∀ k, JumpAt q k → f k ≠ o ∧ f k ≠ e

/-- The jumps of a window belong together within it. -/
structure Sealed (window : List Instruction) : Prop where
  transparent : (brackets window).Transparent
  paired : ∀ k, JumpAt window k → ∃ o e, (brackets window).Partners o e ∧ (k = o ∨ k = e)

section Pruning

variable {p q r u window rest : List Instruction} {f g : Nat → Nat} {i : Instruction} {k m w : Nat}

theorem jumpAt_iff : JumpAt p k ↔ (brackets p)[k]? = some 91 ∨ (brackets p)[k]? = some 93 := by
  simp only [getElem?_brackets, Instruction.bracket_eq_open_iff, Instruction.bracket_eq_close_iff,
    JumpAt, Instruction.IsPlain]
  constructor
  · rintro ⟨i, found, jump⟩
    by_cases opens : i.op = .jez
    · exact .inl ⟨i, found, opens⟩
    · exact .inr ⟨i, found, by simpa [opens] using jump⟩
  · rintro (⟨i, found, opens⟩ | ⟨i, found, closes⟩)
    · exact ⟨i, found, by simp [opens]⟩
    · exact ⟨i, found, by simp [closes]⟩

theorem JumpAt.of_eq (jump : JumpAt p k) (same : q[m]? = p[k]?) : JumpAt q m := by
  obtain ⟨i, found, isJump⟩ := jump
  exact ⟨i, same.trans found, isJump⟩

theorem Prunes.jumpAt (prunes : Prunes p q f) (jump : JumpAt q k) : JumpAt p (f k) :=
  jump.of_eq (prunes.kept k jump)

theorem Prunes.refl (p : List Instruction) : Prunes p p id where
  mono := strictMono_id
  kept _ _ := rfl
  partners _ _ := Iff.rfl
  gone m jump := .inl ⟨m, jump, rfl⟩

theorem Prunes.trans (first : Prunes p q f) (second : Prunes q r g) : Prunes p r (f ∘ g) where
  mono := first.mono.comp second.mono
  kept k jump := (first.kept _ (second.jumpAt jump)).trans (second.kept k jump)
  partners o e := (second.partners o e).trans (first.partners (g o) (g e))
  gone m jump := by
    rcases first.gone m jump with ⟨k, left, rfl⟩ | ⟨o, e, partners, named, gone⟩
    · rcases second.gone k left with ⟨k', left', rfl⟩ | ⟨o, e, partners, named, gone⟩
      · exact .inl ⟨k', left', rfl⟩
      · refine .inr ⟨f o, f e, (first.partners o e).mp partners, ?_, fun k' jump' => ?_⟩
        · exact named.imp (congrArg f) (congrArg f)
        · obtain ⟨notOpen, notClose⟩ := gone k' jump'
          exact ⟨first.mono.injective.ne notOpen, first.mono.injective.ne notClose⟩
    · exact .inr ⟨o, e, partners, named, fun k jump' => gone (g k) (second.jumpAt jump')⟩

/-! ## Windows -/

theorem getElem?_leap (size : window.length = w + 1) (elsewhere : k ≠ u.length) :
    (u ++ (window ++ rest))[leap u.length w k]? = (u ++ i :: rest)[k]? := by
  rcases Nat.lt_or_gt_of_ne elsewhere with before | behind
  · rw [leap_of_le w (by omega), List.getElem?_append_left before, List.getElem?_append_left before]
  · obtain ⟨j, rfl⟩ := Nat.exists_eq_add_of_lt behind
    have index : u.length + j + 1 + w = u.length + (window.length + j) := by omega
    have index' : u.length + j + 1 = u.length + (j + 1) := by omega
    rw [leap_of_lt w behind, index, index', getElem?_append_add, getElem?_append_add,
      getElem?_append_add, List.getElem?_cons_succ]

/-- One window is replaced by an instruction that is no jump. -/
theorem Prunes.of_window (inside : Sealed window) (size : window.length = w + 1)
    (plain : i.IsPlain) :
    Prunes (u ++ (window ++ rest)) (u ++ i :: rest) (leap u.length w) := by
  have text : brackets (u ++ (window ++ rest)) =
      brackets u ++ (brackets window ++ brackets rest) := by
    simp [brackets]
  have text' : brackets (u ++ i :: rest) = brackets u ++ i.bracket :: brackets rest := by
    simp [brackets]
  have elsewhere : ∀ k, JumpAt (u ++ i :: rest) k → k ≠ u.length := by
    rintro _ ⟨j, found, jump⟩ rfl
    have here := getElem?_append_add u (i :: rest) 0
    cases here.symm.trans found
    exact jump plain
  refine ⟨strictMono_leap _ _, fun k jump => ?_, fun o e => ?_, fun m jump => ?_⟩
  · exact getElem?_leap size (elsewhere k jump)
  · have blank : i.bracket ≠ 91 ∧ i.bracket ≠ 93 := by
      rw [Instruction.bracket_plain plain]
      decide
    have replace := Bytes.partners_replace (x := brackets u) (y := brackets rest) (a := o) (b := e)
      inside.transparent ((length_brackets window).trans size) blank
    rwa [text, text', ← length_brackets u]
  · by_cases within : u.length ≤ m ∧ m < u.length + window.length
    · obtain ⟨j, rfl⟩ := Nat.exists_eq_add_of_le within.1
      have here : JumpAt window j := by
        refine jump.of_eq ?_
        rw [getElem?_append_add, List.getElem?_append_left (by omega)]
      obtain ⟨o, e, partners, named⟩ := inside.paired j here
      refine .inr ⟨u.length + o, u.length + e, ?_, by omega, fun k jump' => ?_⟩
      · rw [text, ← length_brackets u]
        exact (Bytes.partners_append _).mpr (partners.append _)
      · have bounds := partners.lt_length
        rw [length_brackets] at bounds
        have := elsewhere k jump'
        unfold leap
        split <;> omega
    · have back : ∃ k, k ≠ u.length ∧ leap u.length w k = m := by
        rcases Nat.lt_or_ge m u.length with before | behind
        · exact ⟨m, by omega, leap_of_le w (by omega)⟩
        · exact ⟨m - w, by omega, by rw [leap_of_lt w (by omega)]; omega⟩
      obtain ⟨k, apart, rfl⟩ := back
      exact .inl ⟨k, jump.of_eq (getElem?_leap size apart).symm, rfl⟩

theorem sealed_of_plain (plain : ∀ j ∈ window, j.IsPlain) : Sealed window where
  transparent := by
    apply Bytes.transparent_of_blank
    intro z member
    obtain ⟨j, inside, rfl⟩ := List.mem_map.mp member
    rw [Instruction.bracket_plain (plain j inside)]
    decide
  paired := by
    rintro k ⟨j, found, jump⟩
    exact absurd (plain j (List.mem_of_getElem? found)) jump

theorem sealed_of_loop {o e : Instruction} {is : List Instruction} (opens : o.op = .jez)
    (plain : ∀ j ∈ is, j.IsPlain) (closes : e.op = .jnz) : Sealed (o :: (is ++ [e])) := by
  have text : brackets (o :: (is ++ [e])) = 91 :: (brackets is ++ [93]) := by
    simp [brackets, Instruction.bracket_eq_open_iff.mpr opens,
      Instruction.bracket_eq_close_iff.mpr closes]
  have inner := (sealed_of_plain plain).transparent
  refine ⟨text ▸ inner.loop, fun k jump => ⟨0, is.length + 1, ?_, ?_⟩⟩
  · rw [text, ← length_brackets is, Bytes.partners_front]
    refine ⟨rfl, by simp, ?_⟩
    rw [List.take_left]
    exact inner.balanced
  · obtain ⟨j, found, jump⟩ := jump
    cases k with
    | zero => exact .inl rfl
    | succ k =>
        rw [List.getElem?_cons_succ] at found
        have inside := (List.getElem?_eq_some_iff.mp found).1
        rw [List.length_append, List.length_singleton] at inside
        rcases Nat.lt_or_ge k is.length with within | last
        · rw [List.getElem?_append_left within] at found
          exact absurd (plain j (List.mem_of_getElem? found)) jump
        · exact .inr (by omega)

/-! ## Jumps without partner -/

/-- Jumps without partner are left alone, and no other jump has lost its partner. -/
theorem Prunes.mem_strays_iff (prunes : Prunes p q f) :
    m ∈ (brackets p).strays ↔ ∃ k ∈ (brackets q).strays, f k = m := by
  simp only [Bytes.mem_strays, ← jumpAt_iff]
  constructor
  · rintro ⟨jump, alone⟩
    rcases prunes.gone m jump with ⟨k, left, rfl⟩ | ⟨o, e, partners, rfl | rfl, _⟩
    · refine ⟨k, ⟨left, fun j => ⟨fun partners => ?_, fun partners => ?_⟩⟩, rfl⟩
      · exact (alone (f j)).1 ((prunes.partners k j).mp partners)
      · exact (alone (f j)).2 ((prunes.partners j k).mp partners)
    · exact absurd partners (alone e).1
    · exact absurd partners (alone o).2
  · rintro ⟨k, ⟨left, alone⟩, rfl⟩
    refine ⟨prunes.jumpAt left, fun j => ⟨fun partners => ?_, fun partners => ?_⟩⟩
    · rcases prunes.gone j (jumpAt_iff.mpr (.inr partners.2.1)) with
        ⟨k', _, rfl⟩ | ⟨o, e, partners', rfl | rfl, gone⟩
      · exact (alone k').1 ((prunes.partners k k').mpr partners)
      · exact partners'.ne partners rfl
      · exact (gone k left).1 (partners.unique partners' (.inr rfl)).1
    · rcases prunes.gone j (jumpAt_iff.mpr (.inl partners.1)) with
        ⟨k', _, rfl⟩ | ⟨o, e, partners', rfl | rfl, gone⟩
      · exact (alone k').2 ((prunes.partners k' k).mpr partners)
      · exact (gone k left).2 (partners.unique partners' (.inl rfl)).2
      · exact partners.ne partners' rfl

theorem Bytes.sorted_strays (source : Bytes) : source.strays.Pairwise (· < ·) :=
  List.pairwise_lt_range.filter _

theorem Prunes.map_strays (prunes : Prunes p q f) :
    (brackets q).strays.map f = (brackets p).strays := by
  have sorted : ((brackets q).strays.map f).Pairwise (· < ·) :=
    (Bytes.sorted_strays _).map f fun _ _ less => prunes.mono less
  refine sorted.eq_of_mem_iff (Bytes.sorted_strays _) fun m => ?_
  rw [prunes.mem_strays_iff, List.mem_map]

end Pruning

/-! ## The optimizer -/

namespace Peephole

variable {rule : Rule} {windows : Windows} {p : List Instruction}

/-- Such windows may be replaced: their jumps belong together within them, and the instruction
    that replaces them is no jump. -/
def SealedWindows (windows : Windows) : Prop :=
  ∀ window i, windows window i → Sealed window ∧ i.IsPlain

theorem Plain.sealed (plain : Plain windows) : SealedWindows windows := by
  intro window i inside
  have plain := List.forall_mem_cons.mp (plain window i inside)
  exact ⟨sealed_of_plain plain.2, plain.1⟩

theorem Plain.sealed_looped (plain : Plain windows) : SealedWindows (Looped windows) := by
  rintro _ i ⟨opens, inside, closes⟩
  have plain := List.forall_mem_cons.mp (plain _ i inside)
  exact ⟨sealed_of_loop opens plain.2 closes, plain.1⟩

theorem Rule.Fuses.prunes (fuses : rule.Fuses windows) (closed : SealedWindows windows) :
    rule.Keeps fun q => ∃ f, Prunes p q f := by
  rintro u _ rest i fused ⟨f, prunes⟩
  have shorter := rule.shorter _ _ _ fused
  obtain ⟨window, inside, rfl⟩ := (fuses _ i rest).mp fused
  obtain ⟨w, size⟩ : ∃ w, window.length = w + 1 := by
    rw [List.length_append] at shorter
    exact ⟨window.length - 1, by omega⟩
  obtain ⟨within, plain⟩ := closed window i inside
  exact ⟨_, prunes.trans (.of_window within size plain)⟩

theorem passes_prune :
    ∀ pass ∈ passes, ∀ rule ∈ pass.rules, rule.Keeps fun q => ∃ f, Prunes p q f :=
  forall_rules (clearLoop_fuses.prunes clearBody_plain.sealed_looped)
    (zeroZero_fuses.prunes zeroTwice_plain.sealed)
    (searchLoop_fuses.prunes searchBody_plain.sealed_looped)
    (moveLoop_fuses.prunes takeGive_plain.sealed_looped)
    (moveLoopSwapped_fuses.prunes giveTake_plain.sealed_looped)
    (zeroStep_fuses.prunes zeroAndStep_plain.sealed)
    (zeroMerge_fuses.prunes twoAreas_plain.sealed)
    (mandelLoop_fuses.prunes diffuseBody_plain.sealed_looped)

/-- Before it is linked, an optimized program is what is left of the program. -/
theorem optimize_prunes (fixpoint : Bool) (p : Program) :
    ∃ (q : Program) (f : Nat → Nat),
      Prunes p.toList q.toList f ∧ (optimize fixpoint p).1 = q.link := by
  obtain ⟨f, prunes⟩ := rounds_keeps passes_prune fixpoint 1 [] p.toList ⟨id, .refl p.toList⟩
  exact ⟨(rounds fixpoint 1 [] p.toList).1.toArray, f, prunes, rfl⟩

end Peephole

section Linking

variable {p q : Program} {f : Nat → Nat}

theorem Program.strays_link (q : Program) : q.link.strays = q.strays := by
  rw [strays, strays, brackets_link]

theorem Program.partners_link {o e : Nat} : q.link.Partners o e ↔ q.Partners o e := by
  rw [Partners, Partners, brackets_link]

theorem Prunes.strayJumps_link (prunes : Prunes p.toList q.toList f) :
    q.link.strayJumps = p.strayJumps := by
  have places : p.strays = q.strays.map f := prunes.map_strays.symm
  rw [Program.strayJumps, Program.strayJumps, Program.strays_link, places, List.filterMap_map]
  apply List.filterMap_congr
  intro k stray
  have jump : JumpAt q.toList k := jumpAt_iff.mpr (Bytes.mem_strays.mp stray).1
  have same := prunes.kept k jump
  rw [Array.getElem?_toList, Array.getElem?_toList] at same
  exact (Program.link_of_stray stray).trans same.symm

end Linking

/-- Of the jumps of a program, whether they match or not, the optimizer removes pairs and nothing
    else. Jumps without partner are the same as before, with their operands; jumps that belong
    together did so before, and are nested and ordered as they were; and both operands of a pair are
    the distance between the two, if the distances in the program were operands. -/
theorem Peephole.optimize_removes_pairs_only (fixpoint : Bool) (p : Program)
    (near : ∀ o e, p.Partners o e → e - o ≤ 65535) :
    (optimize fixpoint p).1.strayJumps = p.strayJumps ∧
    (∃ f : Nat → Nat, StrictMono f ∧ (optimize fixpoint p).1.strays.map f = p.strays ∧
      ∀ o e, (optimize fixpoint p).1.Partners o e → p.Partners (f o) (f e)) ∧
    ∀ o e, (optimize fixpoint p).1.Partners o e →
      ∃ i j, (optimize fixpoint p).1[o]? = some i ∧ (optimize fixpoint p).1[e]? = some j ∧
        i.op = .jez ∧ j.op = .jnz ∧ i.arg.toNat = e - o ∧ j.arg.toNat = e - o := by
  obtain ⟨q, f, prunes, same⟩ := optimize_prunes fixpoint p
  rw [same]
  simp only [Program.partners_link]
  have before : ∀ o e, q.Partners o e → p.Partners (f o) (f e) := fun o e =>
    (prunes.partners o e).mp
  refine ⟨prunes.strayJumps_link, ⟨f, prunes.mono, ?_, before⟩, fun o e partners => ?_⟩
  · rw [Program.strays_link]
    exact prunes.map_strays
  · obtain ⟨i, j, found, found', opens, closes, out, back⟩ := Program.link_of_partners partners
    have reach : (e - o).toUInt16.toNat = e - o := by
      have less : o < e := partners.2.2.1
      have close := near _ _ (before o e partners)
      -- Fusions bring jumps closer.
      have closer := prunes.mono.add_le_nat (e - o) o
      rw [Nat.sub_add_cancel (Nat.le_of_lt less)] at closer
      rw [Nat.toUInt16_eq, UInt16.toNat_ofNat_of_lt']
      simp only [UInt16.size]
      omega
    exact ⟨i, j, found, found', opens, closes, out ▸ reach, back ▸ reach⟩

/-- `][[[-]>][.` with operands that have nothing to do with the distances of the jumps. -/
def Program.tangled : Program :=
  #[.jnz 4, .jez 1, .jez 0, .jez 9, .add 255, .jnz 8, .right 1, .jnz 0, .jez 5, .write]

theorem Peephole.optimize_removes_pairs_only_tangled :
    (∀ o e, Program.tangled.Partners o e → e - o ≤ 65535) ∧
    Program.tangled.Partners 2 7 ∧ Program.tangled.Partners 3 5 ∧
    Program.tangled.strays = [0, 1, 8] ∧
    (optimize false Program.tangled).1.strayJumps = [.jnz 4, .jez 1, .jez 5] ∧
    ∀ o e, (optimize false Program.tangled).1.Partners o e →
      ∃ i j, (optimize false Program.tangled).1[o]? = some i ∧
        (optimize false Program.tangled).1[e]? = some j ∧
        i.op = .jez ∧ j.op = .jnz ∧ i.arg.toNat = e - o ∧ j.arg.toNat = e - o := by
  have near : ∀ o e, Program.tangled.Partners o e → e - o ≤ 65535 := by
    intro o e partners
    have inside : e < 10 := partners.lt_length.2
    omega
  obtain ⟨strays, _, distances⟩ := optimize_removes_pairs_only false Program.tangled near
  exact ⟨near, by decide, by decide, by decide, strays.trans (by decide), distances⟩

end TapeLang
