import TapeLang.Stream.Failure
import TapeLang.Stream.Writer

/-! # Printers

A printer passes pieces of text to a writer until a write call fails. From
then on nothing reaches the writer any more and the first failure is kept.
-/

namespace TapeLang

/-- A writer with the first failure met on it. -/
structure Printer where
  writer : Writer
  failure : Option Failure := none

namespace Printer

/-- Write a piece of text unless a write has failed before; also gives the
    number of bytes taken. -/
def print (piece : Bytes) (p : Printer) : Nat × Printer :=
  match p.failure with
  | some _ => (0, p)
  | none =>
    let (outcome, writer) := p.writer.write piece
    (outcome.taken, { writer, failure := outcome.failure.map Failure.ofWrite })

/-- Write pieces of text one after the other. -/
def printAll (pieces : List Bytes) (p : Printer) : Printer :=
  pieces.foldl (fun p piece => (p.print piece).2) p

theorem printAll_append (pieces more : List Bytes) (p : Printer) :
    p.printAll (pieces ++ more) = (p.printAll pieces).printAll more :=
  List.foldl_append

/-- After a failure, nothing is written any more. -/
theorem printAll_of_failed {p : Printer} (failed : p.failure.isSome) (pieces : List Bytes) :
    p.printAll pieces = p := by
  obtain ⟨failure, same⟩ := Option.isSome_iff_exists.mp failed
  induction pieces with
  | nil => rfl
  | cons piece pieces ih =>
    have kept : (p.print piece).2 = p := by simp only [print, same]
    rw [printAll, List.foldl_cons, kept]
    exact ih

end Printer

end TapeLang
