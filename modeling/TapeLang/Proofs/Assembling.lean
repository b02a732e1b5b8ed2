import Mathlib.Data.List.Forall2
import TapeLang.Assembly.Assemble
import TapeLang.Proofs.Literals

/-! # What the assembler accepts

A source is accepted exactly if it is read without problems and the words outside
its comments spell instructions: a name of the opcode, then its operands. The
assembler goes on after a mistake, but a complaint is never taken back, so no
source slips through because of what follows the mistake.
-/

namespace TapeLang

/-- Operands that the opcode does not use are zero. -/
structure Instruction.Tidy (i : Instruction) : Prop where
  unused : i.op.arity < 1 → i.arg = 0
  unused2 : i.op.arity < 2 → i.arg2 = 0

namespace Assembly

/-! ## The grammar -/

/-- The word is the mnemonic of the opcode or its alias. -/
def Names (word : Bytes) (op : Opcode) : Prop :=
  op ∈ Opcode.named ∧
    (word = Bytes.ofString op.name ∨ ∃ other, alias? op = some other ∧ word = Bytes.ofString other)

/-- The word is an integer literal in the range of the opcode, which gives this operand. -/
def Gives (op : Opcode) (word : Bytes) (n : UInt16) : Prop :=
  ∃ v, IntLiteral.Denotes word v ∧
    if op = .add then (-128 ≤ v ∧ v ≤ 255) ∧ n.toNat = v % 256
    else (0 ≤ v ∧ v ≤ 65535) ∧ n.toNat = v

/-- The words are a name and the operands of the instruction, and it has no others. -/
structure Spells (i : Instruction) (words : List Bytes) : Prop where
  tidy : i.Tidy
  split : ∃ name args, words = name :: args ∧ Names name i.op ∧
    List.Forall₂ (Gives i.op) args i.operands

/-- The words spell the instructions one after the other. -/
def SpellsAll (p : List Instruction) (words : List Bytes) : Prop :=
  ∃ parts, List.Forall₂ Spells p parts ∧ words = parts.flatten

/-- The text of a word. -/
def Item.text? : Item → Option Bytes
  | .word _ text => some text
  | .problem _ | .stray _ _ => none

def Item.IsProblem : Item → Prop
  | .problem _ => True
  | .word _ _ | .stray _ _ => False

def Item.opens (item : Item) : Bool :=
  item.text? = some (Bytes.ofString "(")

def Item.closes (item : Item) : Bool :=
  item.text? = some (Bytes.ofString ")")

/-- The items outside comments. A comment goes to the next closing word, or to the end. -/
def outside : List Item → List Item
  | [] => []
  | item :: rest =>
    if item.opens then outside ((rest.dropWhile (!·.closes)).drop 1) else item :: outside rest
termination_by items => items.length
decreasing_by
  · have shorter := (rest.dropWhile_sublist (!·.closes)).length_le
    simp only [List.length_drop, List.length_cons]
    omega
  · simp

/-! ## Instructions from words -/

theorem opcode?_eq_some_iff {word : Bytes} {op : Opcode} :
    opcode? word = some op ↔ Names word op := by
  have listed : (word, op) ∈ mnemonics ↔ Names word op := by
    simp only [mnemonics, Names, List.mem_flatMap, List.mem_map, List.mem_cons, Option.mem_toList,
      Prod.mk.injEq]
    constructor
    · intro ⟨_, member, text, named, same, here⟩
      subst here
      rcases named with named | named
      · exact ⟨member, .inl (by rw [← same, named])⟩
      · exact ⟨member, .inr ⟨text, named, same.symm⟩⟩
    · intro ⟨member, named⟩
      rcases named with named | ⟨other, known, named⟩
      · exact ⟨op, member, op.name, .inl rfl, named.symm, rfl⟩
      · exact ⟨op, member, other, .inr known, named.symm, rfl⟩
  have found : ∀ entry ∈ mnemonics, mnemonics.lookup entry.1 = some entry.2 := by decide
  rw [← listed]
  constructor
  · intro looked
    obtain ⟨before, after, same, _⟩ := List.lookup_eq_some_iff.mp looked
    rw [same]
    simp
  · exact found (word, op)

theorem toNat_toUInt16 {v : Int} (low : 0 ≤ v) (high : v ≤ 65535) :
    v.toNat.toUInt16.toNat = v := by
  rw [Nat.toUInt16, UInt16.toNat_ofNat']
  omega

theorem operand?_eq_some_iff {op : Opcode} {word : Bytes} {n : UInt16} :
    operand? op word = some n ↔ Gives op word n := by
  have literal : ∀ v, -128 ≤ v → v ≤ 65535 → IntLiteral.Denotes word v →
      IntLiteral.parse 32 word = .ok v := by
    intro v low high denotes
    have width : Nat.pow 2 (32 - 1) = 2147483648 := by decide
    rw [IntLiteral.parse_eq_ok_iff (by decide), width]
    exact ⟨denotes, by omega, by omega⟩
  unfold operand? Gives
  constructor
  · intro given
    split at given
    · cases given
    · next v read =>
        refine ⟨v, ((IntLiteral.parse_eq_ok_iff (by decide)).mp read).1, ?_⟩
        split at given
        · split at given
          · next add inside =>
              cases given
              rw [if_pos add]
              exact ⟨inside, toNat_toUInt16 (by omega) (by omega)⟩
          · cases given
        · split at given
          · next other inside =>
              cases given
              rw [if_neg other]
              exact ⟨inside, toNat_toUInt16 inside.1 inside.2⟩
          · cases given
  · intro ⟨v, denotes, given⟩
    have same : ∀ {u : Int}, 0 ≤ u → u ≤ 65535 → n.toNat = u → u.toNat.toUInt16 = n := by
      intro u low high value
      apply UInt16.toNat_inj.mp
      have := toNat_toUInt16 low high
      omega
    split at given
    · next add =>
        obtain ⟨inside, value⟩ := given
        simp only [literal v inside.1 (by omega) denotes, if_pos add, if_pos inside]
        rw [same (by omega) (by omega) value]
    · next other =>
        obtain ⟨inside, value⟩ := given
        have most : 0 ≤ v ∧ v ≤ Instruction.maxOperand := inside
        simp only [literal v (by omega) inside.2 denotes, if_neg other, if_pos most]
        rw [same inside.1 inside.2 value]

theorem arity_le_two (op : Opcode) : op.arity ≤ 2 := by
  cases op <;> simp [Opcode.arity]

theorem tidy_instruction {op : Opcode} {ns : List UInt16} (complete : ns.length = op.arity) :
    (instruction op ns).Tidy ∧ (instruction op ns).operands = ns := by
  have most := arity_le_two op
  match ns with
  | [] | [_] | [_, _] =>
      refine ⟨⟨?_, ?_⟩, ?_⟩ <;> simp [instruction, Instruction.operands, ← complete]
  | _ :: _ :: _ :: _ =>
      simp only [List.length_cons] at complete
      omega

theorem instruction_operands {i : Instruction} (tidy : i.Tidy) :
    instruction i.op i.operands = i := by
  obtain ⟨op, arg, arg2⟩ := i
  obtain ⟨unused, unused2⟩ := tidy
  have most := arity_le_two op
  match arity : op.arity, most with
  | 0, _ | 1, _ | 2, _ => simp_all [instruction, Instruction.operands]

theorem length_operands (i : Instruction) : i.operands.length = i.op.arity := by
  have most := arity_le_two i.op
  simp only [Instruction.operands, List.length_take, List.length_cons, List.length_nil]
  omega

theorem spells_iff {i : Instruction} {words : List Bytes} : Spells i words ↔
    ∃ op ns name args, i = instruction op ns ∧ ns.length = op.arity ∧ words = name :: args ∧
      Names name op ∧ List.Forall₂ (Gives op) args ns := by
  constructor
  · intro ⟨tidy, name, args, split, named, given⟩
    exact ⟨i.op, i.operands, name, args, (instruction_operands tidy).symm, length_operands i, split,
      named, given⟩
  · intro ⟨op, ns, name, args, same, complete, split, named, given⟩
    obtain ⟨tidy, operands⟩ := tidy_instruction complete
    rw [same]
    refine ⟨tidy, name, args, split, named, ?_⟩
    rw [operands]
    exact given

/-! ## Words one by one -/

/-- What the words complete: an instruction that is begun, then others. -/
def Completes (p : List Instruction) (words : List Bytes) : Option (Opcode × List UInt16) → Prop
  | none => SpellsAll p words
  | some (op, present) => ∃ args ns rest q, args ≠ [] ∧ List.Forall₂ (Gives op) args ns ∧
      (present ++ ns).length = op.arity ∧ p = instruction op (present ++ ns) :: q ∧
      SpellsAll q rest ∧ words = args ++ rest

variable {p : List Instruction} {word : Bytes} {words : List Bytes} {op : Opcode}
  {present : List UInt16}

theorem spellsAll_nil : SpellsAll p [] ↔ p = [] := by
  constructor
  · intro ⟨parts, spelled, split⟩
    cases spelled with
    | nil => rfl
    | cons first _ =>
        obtain ⟨_, _, rfl, _⟩ := first.split
        simp at split
  · intro none
    rw [none]
    exact ⟨[], .nil, rfl⟩

theorem spellsAll_cons {i : Instruction} : SpellsAll (i :: p) words ↔
    ∃ first rest, Spells i first ∧ SpellsAll p rest ∧ words = first ++ rest := by
  constructor
  · intro ⟨parts, spelled, split⟩
    cases spelled with
    | @cons _ first _ parts here later =>
        exact ⟨first, parts.flatten, here, ⟨parts, later, rfl⟩, split⟩
  · intro ⟨first, rest, here, ⟨parts, later, flat⟩, split⟩
    exact ⟨first :: parts, .cons here later, by rw [split, flat, List.flatten_cons]⟩

theorem spellsAll_word : SpellsAll p (word :: words) ↔ ∃ op ns args rest q,
    Names word op ∧ List.Forall₂ (Gives op) args ns ∧ ns.length = op.arity ∧
      p = instruction op ns :: q ∧ SpellsAll q rest ∧ words = args ++ rest := by
  constructor
  · intro spelled
    cases p with
    | nil =>
        obtain ⟨_, ⟨⟩, split⟩ := spelled
        cases split
    | cons i q =>
        obtain ⟨first, rest, here, later, split⟩ := spellsAll_cons.mp spelled
        obtain ⟨op, ns, name, args, rfl, complete, rfl, named, given⟩ := spells_iff.mp here
        cases split
        exact ⟨op, ns, args, rest, q, named, given, complete, rfl, later, rfl⟩
  · intro ⟨op, ns, args, rest, q, named, given, complete, same, later, split⟩
    rw [same, split, spellsAll_cons]
    exact ⟨word :: args, rest,
      spells_iff.mpr ⟨op, ns, word, args, rfl, complete, rfl, named, given⟩, later, rfl⟩

theorem completes_name : Completes p (word :: words) none ↔ ∃ op, Names word op ∧
    if op.arity = 0 then ∃ q, p = instruction op [] :: q ∧ Completes q words none
    else Completes p words (some (op, [])) := by
  rw [Completes, spellsAll_word]
  constructor
  · intro ⟨op, ns, args, rest, q, named, given, complete, same, later, split⟩
    refine ⟨op, named, ?_⟩
    split
    · next none =>
        cases List.length_eq_zero_iff.mp (complete.trans none)
        cases given
        exact ⟨q, same, split ▸ later⟩
    · next some =>
        have nonempty : args ≠ [] := by
          intro none
          subst none
          cases given
          exact some complete.symm
        exact ⟨args, ns, rest, q, nonempty, given, complete, same, later, split⟩
  · intro ⟨op, named, begun⟩
    split at begun
    · next none =>
        obtain ⟨q, same, later⟩ := begun
        exact ⟨op, [], [], words, q, named, .nil, none.symm, same, later, rfl⟩
    · obtain ⟨args, ns, rest, q, _, given, complete, same, later, split⟩ := begun
      exact ⟨op, ns, args, rest, q, named, given, complete, same, later, split⟩

theorem completes_operand : Completes p (word :: words) (some (op, present)) ↔
    ∃ n, Gives op word n ∧
      if (present ++ [n]).length = op.arity then
        ∃ q, p = instruction op (present ++ [n]) :: q ∧ Completes q words none
      else Completes p words (some (op, present ++ [n])) := by
  constructor
  · intro ⟨args, ns, rest, q, nonempty, given, complete, same, later, split⟩
    cases given with
    | nil => exact absurd rfl nonempty
    | @cons _ n args ns here given =>
        cases split
        refine ⟨n, here, ?_⟩
        split
        · next full =>
            -- no operand is missing, so there are no others
            have none : ns = [] := by
              apply List.eq_nil_of_length_eq_zero
              simp only [List.length_append, List.length_cons, List.length_nil] at full complete
              omega
            subst none
            cases given
            exact ⟨q, same, later⟩
        · next lacking =>
            have nonempty : args ≠ [] := by
              intro none
              subst none
              cases given
              exact lacking complete
            refine ⟨args, ns, rest, q, nonempty, given, ?_, ?_, later, rfl⟩
            · simpa using complete
            · simpa using same
  · intro ⟨n, here, begun⟩
    split at begun
    · next full =>
        obtain ⟨q, same, later⟩ := begun
        exact ⟨[word], [n], words, q, by simp, .cons here .nil, full, same, later, rfl⟩
    · obtain ⟨args, ns, rest, q, _, given, complete, same, later, split⟩ := begun
      refine ⟨word :: args, n :: ns, rest, q, by simp, .cons here given, ?_, ?_, later, ?_⟩
      · simpa using complete
      · simpa using same
      · rw [split, List.cons_append]

/-! ## The assembler's way through the items -/

namespace Assembler

variable {a : Assembler} {item : Item} {items : List Item}

/-- The assembler as if no comment were open. -/
def calm (a : Assembler) : Assembler :=
  { a with inComment := false }

/-- Instructions and complaints are put behind those that are there. -/
structure Grows (a b : Assembler) : Prop where
  code : a.code.toList <+: b.code.toList
  complaints : a.complaints.toList <+: b.complaints.toList

theorem Grows.refl (a : Assembler) : Grows a a :=
  ⟨List.prefix_rfl, List.prefix_rfl⟩

theorem Grows.trans {a b c : Assembler} (ab : Grows a b) (bc : Grows b c) : Grows a c :=
  ⟨ab.code.trans bc.code, ab.complaints.trans bc.complaints⟩

theorem Grows.quiet {a b : Assembler} (grows : Grows a b) (quiet : b.complaints = #[]) :
    a.complaints = #[] := by
  have complaints := grows.complaints
  rw [quiet] at complaints
  simpa using complaints

theorem grows_takeOperand (a : Assembler) (op : Opcode) (present : List UInt16)
    (position : Position) (word : Bytes) : Grows a (a.takeOperand op present position word) := by
  unfold takeOperand complain
  split
  · exact ⟨by simp, by simp⟩
  · dsimp only
    split <;> exact ⟨by simp, by simp⟩

theorem grows_takeMnemonic (a : Assembler) (position : Position) (word : Bytes) :
    Grows a (a.takeMnemonic position word) := by
  unfold takeMnemonic complain
  split
  · exact ⟨by simp, by simp⟩
  · split <;> exact ⟨by simp, by simp⟩

theorem grows_push (a : Assembler) (item : Item) : Grows a (a.push item) := by
  cases item with
  | problem c => exact ⟨by simp [push, complain], by simp [push, complain]⟩
  | stray position c =>
      rw [push, complain]
      split <;> exact ⟨by simp, by simp⟩
  | word position text =>
      rw [push]
      split
      · split <;> exact ⟨List.prefix_rfl, List.prefix_rfl⟩
      · split
        · exact ⟨List.prefix_rfl, List.prefix_rfl⟩
        · split
          · exact grows_takeOperand ..
          · exact grows_takeMnemonic ..

theorem grows_foldl (a : Assembler) (items : List Item) : Grows a (items.foldl push a) := by
  induction items generalizing a with
  | nil => exact .refl a
  | cons item items ih => exact (grows_push a item).trans (ih (a.push item))

/-- A complaint is never taken back, so a problem spoils the source. -/
theorem not_isProblem_of_quiet (quiet : (items.foldl push a).complaints = #[]) :
    ∀ item ∈ items, ¬ item.IsProblem := by
  induction items generalizing a with
  | nil => simp
  | cons item items ih =>
      have here := (grows_foldl (a.push item) items).quiet quiet
      have notProblem : ¬ item.IsProblem := by
        cases item with
        | problem c => simp [push, complain] at here
        | stray | word => exact id
      simpa using ⟨notProblem, ih quiet⟩

theorem push_opens (notInside : a.inComment = false) (opens : item.opens = true) :
    a.push item = { a with inComment := true } := by
  cases item with
  | problem | stray => simp [Item.opens, Item.text?] at opens
  | word position text =>
      have text : text = Bytes.ofString "(" := by simpa [Item.opens, Item.text?] using opens
      simp [push, notInside, text]

theorem push_word {position : Position} (notInside : a.inComment = false)
    (notOpens : ¬ (Item.word position word).opens = true) : a.push (.word position word) =
      match a.pending with
      | some (op, present) => a.takeOperand op present position word
      | none => a.takeMnemonic position word := by
  have text : word ≠ Bytes.ofString "(" := by simpa [Item.opens, Item.text?] using notOpens
  have outside : ¬ a.inComment = true := by simp [notInside]
  exact (if_neg outside).trans (if_neg text)

theorem inComment_push (notInside : a.inComment = false) (notOpens : ¬ item.opens = true) :
    (a.push item).inComment = false := by
  cases item with
  | problem => exact notInside
  | stray => simp [push, notInside, complain]
  | word position text =>
      rw [push_word notInside notOpens]
      unfold takeOperand takeMnemonic complain
      grind

section Comments

variable (clean : ∀ item ∈ items, ¬ item.IsProblem)

include clean

theorem foldl_push_comment (inside : a.inComment = true) : (items.foldl push a).calm =
    (((items.dropWhile (!·.closes)).drop 1).foldl push a.calm).calm := by
  induction items with
  | nil => rfl
  | cons item items ih =>
      obtain ⟨here, later⟩ := List.forall_mem_cons.mp clean
      rw [List.foldl_cons]
      by_cases closes : item.closes = true
      · have ends : a.push item = a.calm := by
          cases item with
          | problem | stray => simp [Item.closes, Item.text?] at closes
          | word position text =>
              have text : text = Bytes.ofString ")" := by
                simpa [Item.closes, Item.text?] using closes
              simp [push, inside, text, calm]
        rw [ends, List.dropWhile_cons_of_neg (by simp [closes]), List.drop_one, List.tail_cons]
      · have stays : a.push item = a := by
          cases item with
          | problem => exact absurd trivial here
          | stray => simp [push, inside]
          | word position text =>
              have text : text ≠ Bytes.ofString ")" := by
                simpa [Item.closes, Item.text?] using closes
              simp [push, inside, text]
        rw [stays, List.dropWhile_cons_of_pos (by simp [closes])]
        exact ih later

/-- Comments are passed over. -/
theorem foldl_push_outside (notInside : a.inComment = false) :
    (items.foldl push a).calm = ((outside items).foldl push a).calm := by
  fun_induction outside items generalizing a with
  | case1 => rfl
  | case2 item rest opens ih =>
      have clean := (List.forall_mem_cons.mp clean).2
      have left : ∀ item ∈ (rest.dropWhile (!·.closes)).drop 1, ¬ item.IsProblem := by
        intro item member
        exact clean item ((List.dropWhile_sublist _).mem ((List.drop_sublist ..).mem member))
      have same : { a with inComment := true }.calm = a := by simp [calm, ← notInside]
      rw [List.foldl_cons, push_opens notInside opens, foldl_push_comment clean rfl, same]
      exact ih left notInside
  | case3 item rest notOpens ih =>
      rw [List.foldl_cons, List.foldl_cons]
      exact ih (List.forall_mem_cons.mp clean).2 (inComment_push notInside notOpens)

end Comments

/-- Taking the items ends well and adds these instructions to those of `before`. -/
structure Adds (before : Assembler) (p : List Instruction) (items : List Item) (a : Assembler) :
    Prop where
  quiet : (items.foldl push a).complaints = #[]
  complete : (items.foldl push a).pending = none
  code : (items.foldl push a).code.toList = before.code.toList ++ p

/-- The items are words that complete what was begun. -/
def Foresees (p : List Instruction) (items : List Item) (a : Assembler) : Prop :=
  a.complaints = #[] ∧
    ∃ words, List.Forall₂ (·.text? = some ·) items words ∧ Completes p words a.pending

theorem not_adds_of_loud {before : Assembler} (loud : a.complaints ≠ #[]) :
    ¬ Adds before p items a := by
  intro adds
  exact loud ((grows_foldl a items).quiet adds.quiet)

theorem adds_of_same_code {before : Assembler} (same : a.code = before.code) :
    Adds before p items a ↔ Adds a p items a := by
  constructor
  · intro ⟨quiet, complete, code⟩
    exact ⟨quiet, complete, by rw [code, same]⟩
  · intro ⟨quiet, complete, code⟩
    exact ⟨quiet, complete, by rw [code, same]⟩

/-- What is read behind an instruction is what is read from there on. -/
theorem adds_of_pushed {before : Assembler} {i : Instruction}
    (pushed : a.code = before.code.push i) :
    Adds before p items a ↔ ∃ q, p = i :: q ∧ Adds a q items a := by
  obtain ⟨later, same⟩ := (grows_foldl a items).code
  have split : a.code.toList = before.code.toList ++ [i] := by rw [pushed, Array.toList_push]
  constructor
  · intro ⟨quiet, complete, code⟩
    rw [← same, split, List.append_assoc, List.append_cancel_left_eq] at code
    exact ⟨later, code.symm, quiet, complete, same.symm⟩
  · intro ⟨q, added, quiet, complete, code⟩
    refine ⟨quiet, complete, ?_⟩
    rw [code, split, added, List.append_assoc]
    rfl

theorem foresees_word {position : Position} : Foresees p (.word position word :: items) a ↔
    a.complaints = #[] ∧ ∃ words, List.Forall₂ (·.text? = some ·) items words ∧
      Completes p (word :: words) a.pending := by
  simp only [Foresees, List.forall₂_cons_left_iff, Item.text?, Option.some.injEq]
  grind

section Words

variable {position : Position}

theorem adds_takeMnemonic (begun : a.pending = none)
    (next : ∀ p, Adds (a.takeMnemonic position word) p items (a.takeMnemonic position word) ↔
      Foresees p items (a.takeMnemonic position word)) :
    Adds a p items (a.takeMnemonic position word) ↔
      Foresees p (.word position word :: items) a := by
  rw [foresees_word, begun]
  simp only [completes_name, ← opcode?_eq_some_iff]
  unfold takeMnemonic at next ⊢
  cases known : opcode? word with
  | none =>
      have loud : (a.complain position
          (Bytes.ofString "Unknown mnemonic " ++ word)).complaints ≠ #[] := by
        simp [complain]
      simp [not_adds_of_loud loud]
  | some op =>
      simp only [known] at next
      simp only [Option.some.injEq, exists_eq_left']
      split
      · next alone =>
          rw [if_pos alone] at next
          rw [adds_of_pushed rfl]
          simp only [next]
          simp only [Foresees, begun]
          grind
      · next more =>
          rw [if_neg more] at next
          refine (adds_of_same_code ?_).trans (next p)
          rfl

theorem adds_takeOperand (begun : a.pending = some (op, present))
    (next : ∀ p, Adds (a.takeOperand op present position word) p items
      (a.takeOperand op present position word) ↔
        Foresees p items (a.takeOperand op present position word)) :
    Adds a p items (a.takeOperand op present position word) ↔
      Foresees p (.word position word :: items) a := by
  rw [foresees_word, begun]
  simp only [completes_operand, ← operand?_eq_some_iff]
  unfold takeOperand at next ⊢
  cases given : operand? op word with
  | none =>
      have loud : (complain { a with pending := none } position
          (Bytes.ofString s!"Invalid operand for {op.name}: " ++ word)).complaints ≠ #[] := by
        simp [complain]
      simp [not_adds_of_loud loud]
  | some n =>
      simp only [given] at next
      simp only [Option.some.injEq, exists_eq_left']
      split
      · next full =>
          rw [if_pos full] at next
          rw [adds_of_pushed rfl]
          simp only [next]
          simp only [Foresees]
          grind
      · next lacking =>
          rw [if_neg lacking] at next
          refine (adds_of_same_code ?_).trans (next p)
          rfl

end Words

/-- Outside comments, instructions are completed word by word. -/
theorem adds_iff_foresees (notInside : a.inComment = false)
    (noComment : ∀ item ∈ items, ¬ item.opens = true) :
    Adds a p items a ↔ Foresees p items a := by
  induction items generalizing a p with
  | nil =>
      have here : Adds a p [] a ↔ a.complaints = #[] ∧ a.pending = none ∧ p = [] := by
        constructor
        · intro ⟨quiet, complete, code⟩
          exact ⟨quiet, complete, by simpa using code⟩
        · intro ⟨quiet, complete, nothing⟩
          exact ⟨quiet, complete, by simp [nothing]⟩
      rw [here]
      simp only [Foresees, List.forall₂_nil_left_iff, exists_eq_left]
      cases a.pending with
      | none => simp [Completes, spellsAll_nil]
      | some start => simp [Completes]
  | cons item items ih =>
      obtain ⟨notOpens, noComment⟩ := List.forall_mem_cons.mp noComment
      have next := fun p => ih (p := p) (inComment_push notInside notOpens) noComment
      have first : Adds a p (item :: items) a ↔ Adds a p items (a.push item) := by
        constructor
        · intro ⟨quiet, complete, code⟩
          exact ⟨quiet, complete, code⟩
        · intro ⟨quiet, complete, code⟩
          exact ⟨quiet, complete, code⟩
      rw [first]
      cases item with
      | problem c =>
          have loud : (a.push (.problem c)).complaints ≠ #[] := by simp [push, complain]
          simp [not_adds_of_loud loud, Foresees, Item.text?, List.forall₂_cons_left_iff]
      | stray position c =>
          have loud : (a.push (.stray position c)).complaints ≠ #[] := by
            simp [push, complain, notInside]
          simp [not_adds_of_loud loud, Foresees, Item.text?, List.forall₂_cons_left_iff]
      | word position text =>
          rw [push_word notInside notOpens] at next ⊢
          cases begun : a.pending with
          | none =>
              simp only [begun] at next
              exact adds_takeMnemonic begun next
          | some start =>
              obtain ⟨op, present⟩ := start
              simp only [begun] at next
              exact adds_takeOperand begun next

end Assembler

/-! ## The accepted sources -/

/-- Nothing went wrong in reading, and outside comments the items are words that spell the
    program. -/
structure Grammatical (items : List Item) (p : Program) : Prop where
  clean : ∀ item ∈ items, ¬ item.IsProblem
  spelled : ∃ words, List.Forall₂ (·.text? = some ·) (outside items) words ∧
    SpellsAll p.toList words

theorem not_opens_of_mem_outside (items : List Item) :
    ∀ item ∈ outside items, ¬ item.opens = true := by
  fun_induction outside items with
  | case1 => simp
  | case2 item rest opens ih => exact ih
  | case3 item rest notOpens ih => exact List.forall_mem_cons.mpr ⟨notOpens, ih⟩

/-- The assembler gets through the items without a complaint exactly if they are grammatical. -/
theorem grammatical_iff {items : List Item} {p : Program} :
    Grammatical items p ↔ (items.foldl Assembler.push {}).complaints = #[] ∧
      (items.foldl Assembler.push {}).pending = none ∧
      (items.foldl Assembler.push {}).code = p := by
  have outer : (∀ item ∈ items, ¬ item.IsProblem) →
      ((∃ words, List.Forall₂ (·.text? = some ·) (outside items) words ∧
        SpellsAll p.toList words) ↔ (items.foldl Assembler.push {}).complaints = #[] ∧
          (items.foldl Assembler.push {}).pending = none ∧
          (items.foldl Assembler.push {}).code = p) := by
    intro clean
    have same := Assembler.foldl_push_outside clean (a := {}) rfl
    have complaints := congrArg Assembler.complaints same
    have pending := congrArg Assembler.pending same
    have code := congrArg Assembler.code same
    simp only [Assembler.calm] at complaints pending code
    rw [complaints, pending, code]
    have foreseen := Assembler.adds_iff_foresees (a := {}) (p := p.toList) rfl
      (not_opens_of_mem_outside items)
    constructor
    · intro spelled
      obtain ⟨quiet, complete, code⟩ := foreseen.mpr ⟨rfl, spelled⟩
      exact ⟨quiet, complete, Array.toList_inj.mp (by simpa using code)⟩
    · intro ⟨quiet, complete, code⟩
      exact (foreseen.mp ⟨quiet, complete, by simp [code]⟩).2
  constructor
  · intro ⟨clean, spelled⟩
    exact (outer clean).mp spelled
  · intro done
    have clean := Assembler.not_isProblem_of_quiet done.1
    exact ⟨clean, (outer clean).mpr done⟩

theorem finish_quiet_iff {a : Assembler} {position : Position} :
    (a.finish position).complaints = #[] ↔ a.complaints = #[] ∧ a.pending = none := by
  unfold Assembler.finish Assembler.complain
  cases a.pending with
  | none => simp
  | some start => simp

theorem finish_of_quiet {a : Assembler} {position : Position} (complete : a.pending = none) :
    a.finish position = a := by
  simp only [Assembler.finish, complete]

theorem assemble_cases (chunks : List Chunk) :
    (∃ p, assemble chunks = .ok p ∧ Grammatical (items (Glyph.ofChunks chunks)) p) ∨
      ∃ complaints, assemble chunks = .error complaints ∧
        (1 ≤ complaints.length ∧ complaints.length ≤ 10) ∧
        ∀ p, ¬ Grammatical (items (Glyph.ofChunks chunks)) p := by
  simp only [grammatical_iff, assemble]
  generalize (items (Glyph.ofChunks chunks)).foldl Assembler.push {} = a
  generalize Glyph.endPosition (Glyph.ofChunks chunks) = position
  cases said : (a.finish position).complaints.toList with
  | nil =>
      obtain ⟨quiet, complete⟩ := finish_quiet_iff.mp (Array.toList_eq_nil_iff.mp said)
      exact .inl ⟨_, rfl, quiet, complete, by rw [finish_of_quiet complete]⟩
  | cons c cs =>
      have few : 1 ≤ ((c :: cs).take Complaint.limit).length ∧
          ((c :: cs).take Complaint.limit).length ≤ 10 := by
        rw [List.length_take, Complaint.limit, List.length_cons]
        omega
      refine .inr ⟨_, rfl, few, ?_⟩
      intro p ⟨quiet, complete, _⟩
      rw [finish_quiet_iff.mpr ⟨quiet, complete⟩] at said
      cases said

theorem Grammatical.unique {items : List Item} {p q : Program} (hp : Grammatical items p)
    (hq : Grammatical items q) : p = q :=
  (grammatical_iff.mp hp).2.2.symm.trans (grammatical_iff.mp hq).2.2

theorem assemble_eq_ok_iff {chunks : List Chunk} {p : Program} :
    assemble chunks = .ok p ↔ Grammatical (items (Glyph.ofChunks chunks)) p := by
  constructor
  · intro accepted
    rcases assemble_cases chunks with ⟨q, same, grammatical⟩ | ⟨complaints, same, _⟩
    · rw [accepted] at same
      cases same
      exact grammatical
    · rw [accepted] at same
      cases same
  · intro grammatical
    rcases assemble_cases chunks with ⟨q, same, other⟩ | ⟨_, _, _, rejected⟩
    · rw [same, grammatical.unique other]
    · exact absurd grammatical (rejected p)

/-- A source is accepted exactly if it is grammatical, and gives the program that its words
    spell. Any other source is refused, with one to ten complaints. -/
theorem assemble_accepts_grammar (chunks : List Chunk) :
    (∀ p, assemble chunks = .ok p ↔ Grammatical (items (Glyph.ofChunks chunks)) p) ∧
      ((∀ p, ¬ Grammatical (items (Glyph.ofChunks chunks)) p) →
        ∃ complaints, assemble chunks = .error complaints ∧
          1 ≤ complaints.length ∧ complaints.length ≤ 10) := by
  refine ⟨fun p => assemble_eq_ok_iff, ?_⟩
  intro rejected
  rcases assemble_cases chunks with ⟨p, _, grammatical⟩ | ⟨complaints, refused, few, _⟩
  · exact absurd grammatical (rejected p)
  · exact ⟨complaints, refused, few⟩

/-- A comment between a mnemonic and its operand and one that is never closed, and an operand
    that is out of range. -/
theorem assemble_accepts_grammar_comments :
    Grammatical (items (Glyph.ofChunks [⟨Bytes.ofString "+ ( ] ) -1 man", .more⟩,
      ⟨Bytes.ofString "del 010 0xFF ( halt", .ended⟩]))
      #[⟨.add, 255, 0⟩, ⟨.mandel, 8, 255⟩] ∧
    ∃ complaints, assemble [⟨Bytes.ofString "add 256 halt", .ended⟩] = .error complaints ∧
      1 ≤ complaints.length ∧ complaints.length ≤ 10 := by
  refine ⟨((assemble_accepts_grammar _).1 _).mp (by decide +kernel),
    (assemble_accepts_grammar _).2 ?_⟩
  intro p grammatical
  have accepted := ((assemble_accepts_grammar _).1 p).mpr grammatical
  have refused : (assemble [⟨Bytes.ofString "add 256 halt", .ended⟩]).isOk = false := by
    decide +kernel
  rw [accepted] at refused
  cases refused

end Assembly

end TapeLang
