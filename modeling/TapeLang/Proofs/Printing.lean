import TapeLang.Assembly.Listing
import TapeLang.Machine.Dump

/-! # Printing on writers that fail

A text is printed piece by piece, by calls that do not look at how the calls before
them ended. A write call that fails cuts the text off: what the writer has collected is
a front of it, no further call reaches the writer, and the failure is kept with one
context around it.
-/

namespace TapeLang

/-- The write calls up to this number are answered well. -/
def Writer.AcceptsUpTo (stop : Nat) (w : Writer) : Prop :=
  ∀ n, w.writes ≤ n → n < stop → w.onWrite n = .accept

namespace Printer

/-- What can have become of a text that was to be printed on `w`. -/
inductive Printed (text : Bytes) (w : Writer) : Printer → Prop where
  /-- All of it was taken. -/
  | whole {stop : Nat} (onward : w.writes ≤ stop) (accepted : w.AcceptsUpTo stop) :
      Printed text w { writer := { w with writes := stop, received := w.received ++ text } }
  /-- A call failed, and nothing was written any more. -/
  | cut {stop taken : Nat} {message : String} {collected : Bytes} (onward : w.writes ≤ stop)
      (accepted : w.AcceptsUpTo stop) (refused : w.onWrite stop = .refuse taken message)
      (front : collected <+: text) :
      Printed text w
        { writer := { w with writes := stop + 1, received := w.received ++ collected }
          failure := some (.ofWrite message) }

variable {text : Bytes} {w : Writer} {p : Printer}

theorem Printed.start (w : Writer) : Printed [] w { writer := w } := by
  have nothing : w.AcceptsUpTo w.writes := fun n low high => absurd low (Nat.not_le.mpr high)
  have start : Printed [] w _ := .whole (Nat.le_refl _) nothing
  simpa using start

theorem Printed.print (printed : Printed text w p) (piece : Bytes) :
    Printed (text ++ piece) w (p.print piece).2 := by
  cases printed with
  | cut onward accepted refused front =>
      exact .cut onward accepted refused (front.trans (List.prefix_append text piece))
  | @whole stop onward accepted =>
      have received : ∀ more : Bytes,
          w.received ++ text ++ more = w.received ++ (text ++ more) := by
        intro more
        exact Array.ext' (by simp)
      cases reply : w.onWrite stop with
      | accept =>
          have accepted : w.AcceptsUpTo (stop + 1) := by
            intro n low high
            rcases Nat.lt_succ_iff_lt_or_eq.mp high with high | rfl
            · exact accepted n low high
            · exact reply
          have printed : Printed (text ++ piece) w _ := .whole (Nat.le_succ_of_le onward) accepted
          simpa [Printer.print, Writer.write, Writer.settle, reply, received] using printed
      | refuse taken message =>
          have front : text ++ piece.take (min taken piece.length) <+: text ++ piece :=
            (List.prefix_append_right_inj text).mpr (List.take_prefix ..)
          have printed := Printed.cut onward accepted reply front
          simpa [Printer.print, Writer.write, Writer.settle, reply, received] using printed

theorem Printed.printAll (printed : Printed text w p) (pieces : List Bytes) :
    Printed (text ++ pieces.flatten) w (p.printAll pieces) := by
  induction pieces generalizing text p with
  | nil => simpa [Printer.printAll] using printed
  | cons piece pieces ih => simpa [Printer.printAll] using ih (printed.print piece)

theorem printed_pieces (pieces : List Bytes) (w : Writer) :
    Printed pieces.flatten w (printAll pieces { writer := w }) :=
  (Printed.start w).printAll pieces

/-- A writer that never fails has the text in the end. -/
theorem Printed.accepted (printed : Printed text w p) (accepts : ∀ n, w.onWrite n = .accept) :
    p.failure = none ∧ p.writer.received.toList = w.received.toList ++ text := by
  cases printed with
  | whole => exact ⟨rfl, by simp⟩
  | cut _ _ refused _ => cases (accepts _).symm.trans refused

/-- What `p` has left of a text that it was to print on `w`. The calls made are those from the one
    that was the next for `w` up to the one that is the next now. -/
structure Truncates (text : Bytes) (w : Writer) (p : Printer) : Prop where
  /-- A front of the text was collected. -/
  front : ∃ collected, p.writer.received.toList = w.received.toList ++ collected ∧
    collected <+: text
  /-- A call that failed was the last one, and its failure is kept. -/
  last : ∀ n taken message, w.writes ≤ n → n < p.writer.writes →
    w.onWrite n = .refuse taken message →
      p.writer.writes = n + 1 ∧ ∃ failure, p.failure = some failure ∧
        failure.context = ["write failed"] ∧ failure.cause = message ∧
        failure.message = "write failed: " ++ message
  /-- There is a failure exactly if a call failed. -/
  fine : p.failure = none ↔ w.AcceptsUpTo p.writer.writes
  /-- Without one the text is complete. -/
  complete : p.failure = none → p.writer.received.toList = w.received.toList ++ text

theorem Printed.truncates (printed : Printed text w p) : Truncates text w p := by
  cases printed with
  | whole onward accepted =>
      refine ⟨⟨text, by simp, List.prefix_refl text⟩, ?_, ?_, by simp⟩
      · intro n taken message low high refused
        cases (accepted n low high).symm.trans refused
      · exact ⟨fun _ => accepted, fun _ => rfl⟩
  | @cut stop _ message _ onward accepted refused front =>
      refine ⟨⟨_, by simp, front⟩, ?_, ?_, by simp⟩
      · intro n taken' message' low high refused'
        -- no call before the last one failed
        rcases Nat.lt_succ_iff_lt_or_eq.mp high with high | rfl
        · cases (accepted n low high).symm.trans refused'
        · cases refused.symm.trans refused'
          exact ⟨rfl, _, rfl, rfl, rfl, rfl⟩
      · refine ⟨by simp, fun accepts => ?_⟩
        cases (accepts stop onward (Nat.lt_succ_self stop)).symm.trans refused

/-- Printing gives a text to every writer that never fails, and any other writer receives it up to
    its first call that fails. -/
structure Prints (text : Bytes) (print : Writer → Printer) : Prop where
  steady : ∀ w, (∀ n, w.onWrite n = .accept) → (print w).failure = none ∧
    (print w).writer.received.toList = w.received.toList ++ text
  truncates : ∀ w, Truncates text w (print w)

theorem prints_pieces (pieces : List Bytes) :
    Prints pieces.flatten fun w => printAll pieces { writer := w } :=
  ⟨fun w => (printed_pieces pieces w).accepted, fun w => (printed_pieces pieces w).truncates⟩

end Printer

/-- Listings and dumps are cut off by the first write call that fails, wherever that is. -/
theorem failing_writer_truncates_text :
    (∀ base p, Printer.Prints (Assembly.listingPieces base p).flatten (Assembly.list base p)) ∧
    ∀ (count : Int64) (m : Machine), Printer.Prints (m.dumpPieces count).flatten (m.dump count) :=
  ⟨fun base p => by
      rw [funext (Assembly.list_eq_printAll base p)]
      exact Printer.prints_pieces (Assembly.listingPieces base p),
    fun count m => Printer.prints_pieces (m.dumpPieces count)⟩

/-- The third call takes three bytes and fails. -/
example :
    let p := Assembly.list 0 #[.halt, .halt]
      { onWrite := fun n => if n < 2 then .accept else .refuse 3 "full" }
    p.writer.received.toList = Bytes.ofString "         0\thal" ∧ p.writer.writes = 3 ∧
      p.failure.map Failure.message = some "write failed: full" := by
  decide +kernel

end TapeLang
