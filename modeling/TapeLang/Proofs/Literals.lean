import TapeLang.Text.Decimal
import TapeLang.Text.IntLiteral

/-! # Which texts are integer literals

The grammar of literals is a relation between a text and the number it denotes,
without any width. Reading a literal into a word accepts exactly the texts whose
number fits the word. A decimal numeral is a literal of its own number.
-/

namespace TapeLang

namespace IntLiteral

/-- Digits of a radix, each perhaps behind an underscore, continue a value. -/
inductive Digits (radix : Nat) : (value : Nat) → Bytes → (result : Nat) → Prop where
  | done {value : Nat} : Digits radix value [] value
  | digit {b : UInt8} {d value result : Nat} {rest : Bytes} (worth : digitValue? b = some d)
      (below : d < radix) (later : Digits radix (value * radix + d) rest result) :
      Digits radix value (b :: rest) result
  | grouped {b : UInt8} {d value result : Nat} {rest : Bytes} (worth : digitValue? b = some d)
      (below : d < radix) (later : Digits radix (value * radix + d) rest result) :
      Digits radix value (95 :: b :: rest) result

/-- The radix that a letter behind a zero announces. -/
def radix? (mark : UInt8) : Option Nat :=
  if mark = 98 ∨ mark = 66 then some 2
  else if mark = 111 ∨ mark = 79 then some 8
  else if mark = 120 ∨ mark = 88 then some 16
  else none

/-- Literals without a sign. -/
inductive Unsigned : Bytes → Nat → Prop where
  | decimal {b : UInt8} {d n : Nat} {rest : Bytes} (worth : digitValue? b = some d)
      (leads : 1 ≤ d ∧ d < 10) (later : Digits 10 d rest n) : Unsigned (b :: rest) n
  | octal {n : Nat} {rest : Bytes} (later : Digits 8 0 rest n) : Unsigned (48 :: rest) n
  | marked {mark : UInt8} {radix n : Nat} {rest : Bytes} (announced : radix? mark = some radix)
      (nonempty : rest ≠ []) (later : Digits radix 0 rest n) : Unsigned (48 :: mark :: rest) n

/-- The text is an integer literal of this value. -/
inductive Denotes : Bytes → Int → Prop where
  | bare {text : Bytes} {n : Nat} (digits : Unsigned text n) : Denotes text n
  | plus {text : Bytes} {n : Nat} (digits : Unsigned text n) : Denotes (43 :: text) n
  | minus {text : Bytes} {n : Nat} (digits : Unsigned text n) : Denotes (45 :: text) (-n)

variable {radix limit value n bits : Nat} {b : UInt8} {text rest : Bytes} {hex : Bool}

/-! ## Digits -/

theorem digitValue?_underscore : digitValue? 95 = none := by decide

theorem eq_zero_of_digitValue? (worth : digitValue? b = some 0) : b = 48 := by
  unfold digitValue? at worth
  apply UInt8.toNat_inj.mp
  simp only [Bool.and_eq_true, decide_eq_true_eq, UInt8.le_iff_toNat_le] at worth
  have zero : (48 : UInt8).toNat = 48 := rfl
  have a : (97 : UInt8).toNat = 97 := rfl
  grind

theorem Digits.value_le (pos : 1 ≤ radix) (digits : Digits radix value text n) : value ≤ n := by
  induction digits with
  | done => exact Nat.le_refl _
  | @digit _ d value _ _ _ _ _ ih | @grouped _ d value _ _ _ _ _ ih =>
      calc value ≤ value * radix := Nat.le_mul_of_pos_right value pos
        _ ≤ value * radix + d := Nat.le_add_right _ _
        _ ≤ _ := ih

theorem digits_nil_iff : Digits radix value [] n ↔ n = value := by
  constructor
  · intro digits
    cases digits
    rfl
  · intro same
    rw [same]
    exact .done

theorem not_digits_of_worthless (worthless : digitValue? b = none) (notUnderscore : b ≠ 95) :
    ¬ Digits radix value (b :: rest) n := by
  intro digits
  cases digits with
  | digit worth => simp [worthless] at worth
  | grouped => exact notUnderscore rfl

theorem not_digits_grouped (worthless : digitValue? b = none) :
    ¬ Digits radix value (95 :: b :: rest) n := by
  intro digits
  cases digits with
  | digit worth => simp [digitValue?_underscore] at worth
  | grouped worth => simp [worthless] at worth

theorem not_digits_underscore : ¬ Digits radix value [95] n := by
  intro digits
  cases digits with
  | digit worth => simp [digitValue?_underscore] at worth

theorem digits_cons_iff {d : Nat} (worth : digitValue? b = some d) :
    Digits radix value (b :: rest) n ↔ d < radix ∧ Digits radix (value * radix + d) rest n := by
  constructor
  · intro digits
    cases digits with
    | digit worth' below later =>
        cases worth.symm.trans worth'
        exact ⟨below, later⟩
    | grouped => simp [digitValue?_underscore] at worth
  · intro ⟨below, later⟩
    exact .digit worth below later

theorem digits_grouped_iff {d : Nat} (worth : digitValue? b = some d) :
    Digits radix value (95 :: b :: rest) n ↔
      d < radix ∧ Digits radix (value * radix + d) rest n := by
  constructor
  · intro digits
    cases digits with
    | digit worth => simp [digitValue?_underscore] at worth
    | grouped worth' below later =>
        cases worth.symm.trans worth'
        exact ⟨below, later⟩
  · intro ⟨below, later⟩
    exact .grouped worth below later

/-- A byte counts as a digit for the placement of underscores. -/
def isDigit (hex : Bool) (b : UInt8) : Bool :=
  (48 ≤ b && b ≤ 57) || (hex && 97 ≤ lower b && lower b ≤ 102)

/-- The digits of the radix are those that count for underscores. -/
def Radix (hex : Bool) (radix : Nat) : Prop :=
  1 ≤ radix ∧ radix ≤ if hex then 16 else 10

theorem Radix.isDigit {d : Nat} (known : Radix hex radix) (worth : digitValue? b = some d)
    (below : d < radix) : isDigit hex b = true := by
  obtain ⟨_, most⟩ := known
  unfold digitValue? at worth
  split at worth
  · next digit => simp [IntLiteral.isDigit, digit]
  · next notDigit =>
      split at worth
      · next letter =>
          cases worth
          cases hex with
          | false =>
              simp only [Bool.and_eq_true, decide_eq_true_eq, UInt8.le_iff_toNat_le] at letter
              have a : (97 : UInt8).toNat = 97 := rfl
              simp at most
              omega
          | true =>
              have small : (lower b).toNat ≤ 102 := by simp at most; omega
              simp only [Bool.and_eq_true, decide_eq_true_eq] at letter
              simp only [IntLiteral.isDigit, Bool.or_eq_true, Bool.and_eq_true, decide_eq_true_eq]
              exact .inr ⟨⟨trivial, letter.1⟩, UInt8.le_iff_toNat_le.mpr small⟩
      · cases worth

theorem underscoresPlaced_cons (before : Before) (b : UInt8) (rest : Bytes) :
    underscoresPlaced hex before (b :: rest) =
      if isDigit hex b then underscoresPlaced hex .digit rest
      else if b = 95 then before == .digit && underscoresPlaced hex .underscore rest
      else before != .underscore && underscoresPlaced hex .other rest := rfl

theorem not_isDigit_underscore : isDigit hex 95 = false := by
  cases hex <;> decide

/-- Reading digits gives their value if it is not above the limit. What comes right
    behind an underscore is read as if the underscore were still there. -/
theorem digitsValue_eq_ok_iff (known : Radix hex radix) (low : value ≤ limit) :
    (digitsValue radix limit value text = .ok n ∧ underscoresPlaced hex .digit text = true ↔
      Digits radix value text n ∧ n ≤ limit) ∧
    (digitsValue radix limit value text = .ok n ∧ underscoresPlaced hex .underscore text = true ↔
      Digits radix value (95 :: text) n ∧ n ≤ limit) := by
  induction text generalizing value with
  | nil =>
      have end_ok : underscoresPlaced hex .digit [] = true := rfl
      have end_bad : underscoresPlaced hex .underscore [] = false := rfl
      simp only [digitsValue, end_ok, end_bad, digits_nil_iff, not_digits_underscore]
      grind
  | cons b rest ih =>
      by_cases underscore : b = 95
      · subst underscore
        have skips : digitsValue radix limit value (95 :: rest) =
            digitsValue radix limit value rest := by
          rw [digitsValue, if_pos rfl]
        have twice : ¬ Digits radix value (95 :: 95 :: rest) n :=
          not_digits_grouped digitValue?_underscore
        -- the value does not see the underscore, only the check of its place does
        rw [skips]
        simp only [underscoresPlaced_cons, not_isDigit_underscore]
        refine ⟨(ih low).2, ?_⟩
        simp [twice]
      · cases worth : digitValue? b with
        | none =>
            have fails : digitsValue radix limit value (b :: rest) = .error .malformed := by
              simp only [digitsValue, if_neg underscore, worth]
            rw [fails]
            simp [not_digits_of_worthless worth underscore, not_digits_grouped worth]
        | some d =>
            rw [digits_cons_iff worth, digits_grouped_iff worth]
            simp only [digitsValue, if_neg underscore, worth]
            by_cases below : d < radix
            · rw [if_neg (Nat.not_le.mpr below)]
              simp only [underscoresPlaced_cons, known.isDigit worth below]
              by_cases high : limit < value * radix + d
              · -- the value only grows, so it stays above the limit
                have above : Digits radix (value * radix + d) rest n → ¬ n ≤ limit := by
                  intro digits
                  have := digits.value_le known.1
                  omega
                rw [if_pos high]
                simp [below]
                exact fun digits => Nat.not_le.mp (above digits)
              · rw [if_neg high]
                simpa [below] using (ih (Nat.not_lt.mp high)).1
            · rw [if_pos (Nat.not_lt.mp below)]
              simp [below]

theorem underscoresPlaced_of_not_mem (known : Radix hex radix)
    (ok : digitsValue radix limit value text = .ok n) (none : 95 ∉ text) :
    underscoresPlaced hex .digit text = true := by
  induction text generalizing value with
  | nil => rfl
  | cons b rest ih =>
      obtain ⟨notUnderscore, none⟩ := List.ne_and_not_mem_of_not_mem_cons none
      rw [digitsValue, if_neg notUnderscore.symm] at ok
      cases worth : digitValue? b with
      | none => simp [worth] at ok
      | some d =>
          simp only [worth] at ok
          split at ok
          · cases ok
          · next below =>
              split at ok
              · cases ok
              · rw [underscoresPlaced_cons, known.isDigit worth (Nat.not_le.mp below)]
                exact ih ok none

/-! ## Literals -/

theorem lower_eq_iff (b : UInt8) : (lower b = 98 ↔ b = 98 ∨ b = 66) ∧
    (lower b = 111 ↔ b = 111 ∨ b = 79) ∧ (lower b = 120 ↔ b = 120 ∨ b = 88) := by
  have all : ∀ n < 256, ∀ b, b = UInt8.ofNat n → (lower b = 98 ↔ b = 98 ∨ b = 66) ∧
      (lower b = 111 ↔ b = 111 ∨ b = 79) ∧ (lower b = 120 ↔ b = 120 ∨ b = 88) := by
    simp only [forall_eq]
    decide +kernel
  exact all b.toNat b.toNat_lt b UInt8.ofNat_toNat.symm

theorem magnitude_eq_ok_iff_digits (notEmpty : text ≠ []) : magnitude bits text = .ok n ↔
    digitsValue (splitRadix text).1 (Nat.pow 2 bits - 1) 0 (splitRadix text).2 = .ok n ∧
      (95 ∈ text → underscoresOk text = true) := by
  rw [magnitude, if_neg (by simpa using notEmpty)]
  cases read : digitsValue (splitRadix text).1 (Nat.pow 2 bits - 1) 0 (splitRadix text).2 with
  | error problem => simp only [read]; simp
  | ok value => simp only [read]; grind

/-- A text is read like its digits, whatever stands before them. -/
theorem magnitude_eq_ok_iff_of_split {digits : Bytes} (notEmpty : text ≠ [])
    (known : Radix hex radix) (split : splitRadix text = (radix, digits))
    (members : 95 ∈ text ↔ 95 ∈ digits)
    (placed : underscoresOk text = underscoresPlaced hex .digit digits) :
    magnitude bits text = .ok n ↔ Digits radix 0 digits n ∧ n < Nat.pow 2 bits := by
  have pos : 0 < Nat.pow 2 bits := Nat.pow_pos (by decide)
  have bound : n < Nat.pow 2 bits ↔ n ≤ Nat.pow 2 bits - 1 := by omega
  rw [magnitude_eq_ok_iff_digits notEmpty, split, bound,
    ← (digitsValue_eq_ok_iff known (Nat.zero_le _)).1, members, placed]
  dsimp only
  constructor
  · intro ⟨ok, good⟩
    refine ⟨ok, ?_⟩
    by_cases member : 95 ∈ digits
    · exact good member
    · exact underscoresPlaced_of_not_mem known ok member
  · intro ⟨ok, good⟩
    exact ⟨ok, fun _ => good⟩

theorem lower_of_radix? {mark : UInt8} (announced : radix? mark = some radix) :
    (radix = 2 ∧ lower mark = 98) ∨ (radix = 8 ∧ lower mark = 111) ∨
      (radix = 16 ∧ lower mark = 120) := by
  obtain ⟨two, eight, sixteen⟩ := lower_eq_iff mark
  rw [two, eight, sixteen]
  unfold radix? at announced
  grind

theorem radix?_eq_none_iff {mark : UInt8} :
    radix? mark = none ↔ lower mark ≠ 98 ∧ lower mark ≠ 111 ∧ lower mark ≠ 120 := by
  obtain ⟨two, eight, sixteen⟩ := lower_eq_iff mark
  rw [ne_eq, ne_eq, ne_eq, two, eight, sixteen]
  unfold radix?
  grind

/-- The letter of a radix is no octal digit. -/
theorem not_octal_of_radix? {mark : UInt8} (announced : radix? mark = some radix) :
    ¬ Digits 8 0 (mark :: rest) n := by
  intro octal
  have letter : mark = 98 ∨ mark = 66 ∨ mark = 111 ∨ mark = 79 ∨ mark = 120 ∨ mark = 88 := by
    unfold radix? at announced
    grind
  cases octal with
  | digit worth below =>
      rcases letter with rfl | rfl | rfl | rfl | rfl | rfl
      all_goals
        cases worth
        revert below
        decide
  | grouped => simp at letter

theorem ne_underscore_of_radix? {mark : UInt8} (announced : radix? mark = some radix) :
    mark ≠ 95 := by
  intro same
  rw [same] at announced
  cases announced

theorem magnitude_marked {mark : UInt8} (announced : radix? mark = some radix)
    (nonempty : rest ≠ []) :
    magnitude bits (48 :: mark :: rest) = .ok n ↔ Digits radix 0 rest n ∧ n < Nat.pow 2 bits := by
  obtain ⟨d, more, rfl⟩ := List.exists_cons_of_ne_nil nonempty
  have members : 95 ∈ 48 :: mark :: d :: more ↔ 95 ∈ d :: more := by
    simp [(ne_underscore_of_radix? announced).symm]
  have known : Radix (lower mark = 120) radix := by
    rcases lower_of_radix? announced with ⟨rfl, mark⟩ | ⟨rfl, mark⟩ | ⟨rfl, mark⟩ <;>
      simp [Radix, mark]
  apply magnitude_eq_ok_iff_of_split (by simp) known ?_ members ?_
  · rcases lower_of_radix? announced with ⟨rfl, mark⟩ | ⟨rfl, mark⟩ | ⟨rfl, mark⟩ <;>
      simp [splitRadix, mark]
  · rcases lower_of_radix? announced with ⟨rfl, mark⟩ | ⟨rfl, mark⟩ | ⟨rfl, mark⟩ <;>
      simp [underscoresOk, mark]

/-- A radix without digits is no literal. -/
theorem magnitude_mark_alone {mark : UInt8} (announced : radix? mark = some radix) :
    magnitude bits [48, mark] ≠ .ok n := by
  intro ok
  have notUnderscore : 95 ∉ [mark] := by simpa using (ne_underscore_of_radix? announced).symm
  have known : Radix false 8 := by simp [Radix]
  obtain ⟨read, _⟩ := (magnitude_eq_ok_iff_digits (by simp)).mp ok
  have placed := underscoresPlaced_of_not_mem known read notUnderscore
  obtain ⟨digits, _⟩ := (digitsValue_eq_ok_iff known (Nat.zero_le _)).1.mp ⟨read, placed⟩
  exact not_octal_of_radix? announced digits

theorem magnitude_octal (unmarked : ∀ mark more, rest = mark :: more → radix? mark = none) :
    magnitude bits (48 :: rest) = .ok n ↔ Digits 8 0 rest n ∧ n < Nat.pow 2 bits := by
  have known : Radix false 8 := by simp [Radix]
  apply magnitude_eq_ok_iff_of_split (by simp) known ?_ (by simp) ?_
  · match rest with
    | [] | [_] => rfl
    | mark :: d :: more =>
        obtain ⟨two, eight, sixteen⟩ := radix?_eq_none_iff.mp (unmarked mark _ rfl)
        simp [splitRadix, two, eight, sixteen]
  · match rest with
    | [] => rfl
    | mark :: more =>
        obtain ⟨two, eight, sixteen⟩ := radix?_eq_none_iff.mp (unmarked mark _ rfl)
        simp [underscoresOk, two, eight, sixteen, underscoresPlaced]

theorem magnitude_decimal (notZero : b ≠ 48) (notUnderscore : b ≠ 95) :
    magnitude bits (b :: rest) = .ok n ↔ Digits 10 0 (b :: rest) n ∧ n < Nat.pow 2 bits := by
  have known : Radix false 10 := by simp [Radix]
  apply magnitude_eq_ok_iff_of_split (by simp) known ?_ Iff.rfl ?_
  · simp [splitRadix, notZero]
  · have start : underscoresOk (b :: rest) = underscoresPlaced false .start (b :: rest) := by
      simp [underscoresOk, notZero]
    rw [start, underscoresPlaced_cons, underscoresPlaced_cons, if_neg notUnderscore,
      if_neg notUnderscore]
    rfl

theorem unsigned_marked_iff {mark : UInt8} (announced : radix? mark = some radix) :
    Unsigned (48 :: mark :: rest) n ↔ rest ≠ [] ∧ Digits radix 0 rest n := by
  constructor
  · intro digits
    cases digits with
    | decimal worth leads => cases worth; simp at leads
    | octal later => exact absurd later (not_octal_of_radix? announced)
    | marked announced' nonempty later =>
        cases announced.symm.trans announced'
        exact ⟨nonempty, later⟩
  · intro ⟨nonempty, later⟩
    exact .marked announced nonempty later

theorem unsigned_octal_iff (unmarked : ∀ mark more, rest = mark :: more → radix? mark = none) :
    Unsigned (48 :: rest) n ↔ Digits 8 0 rest n := by
  constructor
  · intro digits
    cases digits with
    | decimal worth leads => cases worth; simp at leads
    | octal later => exact later
    | marked announced => simp [unmarked _ _ rfl] at announced
  · exact .octal

theorem unsigned_decimal_iff (notZero : b ≠ 48) :
    Unsigned (b :: rest) n ↔ b ≠ 95 ∧ Digits 10 0 (b :: rest) n := by
  constructor
  · intro digits
    cases digits with
    | decimal worth leads later =>
        refine ⟨?_, (digits_cons_iff worth).mpr ⟨leads.2, by simpa using later⟩⟩
        intro same
        rw [same, digitValue?_underscore] at worth
        cases worth
    | octal | marked => exact absurd rfl notZero
  · intro ⟨notUnderscore, digits⟩
    cases digits with
    | @digit _ d _ _ _ worth below later =>
        have leads : 1 ≤ d := by
          apply Nat.pos_of_ne_zero
          intro zero
          exact notZero (eq_zero_of_digitValue? (zero ▸ worth))
        exact .decimal worth ⟨leads, below⟩ (by simpa using later)
    | grouped => exact absurd rfl notUnderscore

theorem magnitude_eq_ok_iff :
    magnitude bits text = .ok n ↔ Unsigned text n ∧ n < Nat.pow 2 bits := by
  match text with
  | [] =>
      have nothing : ¬ Unsigned [] n := by
        intro digits
        cases digits
      simp [magnitude, nothing]
  | b :: rest =>
      by_cases zero : b = 48
      · subst zero
        match rest with
        | [] =>
            have unmarked : ∀ mark more, ([] : Bytes) = mark :: more → radix? mark = none := by simp
            rw [magnitude_octal unmarked, unsigned_octal_iff unmarked]
        | mark :: more =>
            cases announced : radix? mark with
            | none =>
                have unmarked : ∀ mark' more',
                    mark :: more = mark' :: more' → radix? mark' = none := by
                  grind
                rw [magnitude_octal unmarked, unsigned_octal_iff unmarked]
            | some radix =>
                rw [unsigned_marked_iff announced]
                match more with
                | [] => simp [magnitude_mark_alone announced]
                | d :: more => simp [magnitude_marked announced]
      · rw [unsigned_decimal_iff zero]
        by_cases underscore : b = 95
        · have misplaced : underscoresOk (95 :: rest) = false := by
            simp [underscoresOk, underscoresPlaced]
          rw [underscore, magnitude_eq_ok_iff_digits (by simp)]
          simp [misplaced]
        · rw [magnitude_decimal zero underscore]
          simp [underscore]

theorem Unsigned.head (digits : Unsigned text n) :
    ∃ b rest, text = b :: rest ∧ b ≠ 43 ∧ b ≠ 45 := by
  cases digits with
  | @decimal b _ _ rest worth =>
      refine ⟨b, rest, rfl, ?_, ?_⟩
      · intro same
        rw [same] at worth
        cases worth
      · intro same
        rw [same] at worth
        cases worth
  | @octal _ rest => exact ⟨48, rest, rfl, by decide, by decide⟩
  | @marked mark _ _ rest => exact ⟨48, mark :: rest, rfl, by decide, by decide⟩

theorem denotes_minus_iff {v : Int} :
    Denotes (45 :: text) v ↔ ∃ n : Nat, Unsigned text n ∧ v = -n := by
  constructor
  · intro denotes
    cases denotes with
    | bare digits =>
        obtain ⟨_, _, same, _, notMinus⟩ := digits.head
        cases same
        exact absurd rfl notMinus
    | @minus _ n digits => exact ⟨n, digits, rfl⟩
  · intro ⟨n, digits, same⟩
    rw [same]
    exact .minus digits

theorem denotes_plus_iff {v : Int} :
    Denotes (43 :: text) v ↔ ∃ n : Nat, Unsigned text n ∧ v = n := by
  constructor
  · intro denotes
    cases denotes with
    | bare digits =>
        obtain ⟨_, _, same, notPlus, _⟩ := digits.head
        cases same
        exact absurd rfl notPlus
    | @plus _ n digits => exact ⟨n, digits, rfl⟩
  · intro ⟨n, digits, same⟩
    rw [same]
    exact .plus digits

theorem denotes_bare_iff {v : Int} (notPlus : ∀ rest, text ≠ 43 :: rest)
    (notMinus : ∀ rest, text ≠ 45 :: rest) :
    Denotes text v ↔ ∃ n : Nat, Unsigned text n ∧ v = n := by
  constructor
  · intro denotes
    cases denotes with
    | @bare _ n digits => exact ⟨n, digits, rfl⟩
    | plus => exact absurd rfl (notPlus _)
    | minus => exact absurd rfl (notMinus _)
  · intro ⟨n, digits, same⟩
    rw [same]
    exact .bare digits

section Reading

variable {v : Int}

theorem parse_minus_iff : parse bits (45 :: text) = .ok v ↔
    ∃ n : Nat, magnitude bits text = .ok n ∧ v = -n ∧ n ≤ Nat.pow 2 (bits - 1) := by
  rw [parse]
  cases magnitude bits text <;> grind

theorem parse_plus_iff : parse bits (43 :: text) = .ok v ↔
    ∃ n : Nat, magnitude bits text = .ok n ∧ v = n ∧ n < Nat.pow 2 (bits - 1) := by
  simp only [parse]
  cases magnitude bits text <;> grind

theorem parse_bare_iff (notPlus : ∀ rest, text ≠ 43 :: rest)
    (notMinus : ∀ rest, text ≠ 45 :: rest) :
    parse bits text = .ok v ↔
      ∃ n : Nat, magnitude bits text = .ok n ∧ v = n ∧ n < Nat.pow 2 (bits - 1) := by
  unfold parse
  split
  · exact absurd rfl (notMinus _)
  · split
    · exact absurd rfl (notPlus _)
    · cases read : magnitude bits text <;> simp only [read] <;> grind

/-- Reading accepts exactly the literals whose value fits a signed word. -/
theorem parse_eq_ok_iff (pos : 0 < bits) : parse bits text = .ok v ↔ Denotes text v ∧
    -(Nat.pow 2 (bits - 1) : Nat) ≤ v ∧ v < (Nat.pow 2 (bits - 1) : Nat) := by
  have double : Nat.pow 2 bits = Nat.pow 2 (bits - 1) * 2 := by
    conv => lhs; rw [← Nat.sub_add_cancel pos]
    rfl
  have half : 0 < Nat.pow 2 (bits - 1) := Nat.pow_pos (by decide)
  by_cases minus : ∃ rest, text = 45 :: rest
  · obtain ⟨rest, rfl⟩ := minus
    rw [parse_minus_iff, denotes_minus_iff]
    simp only [magnitude_eq_ok_iff]
    grind
  by_cases plus : ∃ rest, text = 43 :: rest
  · obtain ⟨rest, rfl⟩ := plus
    rw [parse_plus_iff, denotes_plus_iff]
    simp only [magnitude_eq_ok_iff]
    grind
  · simp only [not_exists] at minus plus
    rw [parse_bare_iff plus minus, denotes_bare_iff plus minus]
    simp only [magnitude_eq_ok_iff]
    grind

end Reading

/-! ## Decimal numerals -/

theorem digitValue?_digit (n : Nat) : digitValue? (Decimal.digit n) = some (n % 10) := by
  have all : ∀ d < 10, digitValue? (48 + d).toUInt8 = some d := by decide
  exact all (n % 10) (Nat.mod_lt n (by decide))

theorem Digits.snoc {d : Nat} (worth : digitValue? b = some d) (below : d < radix)
    (digits : Digits radix value text n) : Digits radix value (text ++ [b]) (n * radix + d) := by
  induction digits with
  | done => exact .digit worth below .done
  | digit worth' below' _ ih => exact .digit worth' below' ih
  | grouped worth' below' _ ih => exact .grouped worth' below' ih

theorem digits_ofNat (pos : 0 < n) : ∃ b d rest, Decimal.ofNat n = b :: rest ∧
    digitValue? b = some d ∧ (1 ≤ d ∧ d < 10) ∧ Digits 10 d rest n := by
  fun_induction Decimal.ofNat n with
  | case1 n small =>
      refine ⟨_, n % 10, [], rfl, digitValue?_digit n, by omega, ?_⟩
      rw [Nat.mod_eq_of_lt small]
      exact .done
  | case2 n large ih =>
      obtain ⟨b, d, rest, same, worth, leads, digits⟩ := ih (by omega)
      refine ⟨b, d, rest ++ [Decimal.digit n], by rw [same, List.cons_append], worth, leads, ?_⟩
      have longer := digits.snoc (digitValue?_digit n) (Nat.mod_lt n (by decide))
      rwa [Nat.div_add_mod'] at longer

/-- A decimal numeral is a literal of its number. -/
theorem denotes_ofNat (n : Nat) : Denotes (Decimal.ofNat n) n := by
  apply Denotes.bare
  by_cases zero : n = 0
  · have numeral : Decimal.ofNat 0 = [48] := by
      rw [Decimal.ofNat]
      rfl
    rw [zero, numeral]
    exact .octal .done
  · obtain ⟨b, d, rest, same, worth, leads, digits⟩ := digits_ofNat (Nat.pos_of_ne_zero zero)
    rw [same]
    exact .decimal worth leads digits

end IntLiteral

end TapeLang
