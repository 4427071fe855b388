import TecnicoFs.Broker.Splits
import TecnicoFs.Library.Lines

/-!
# The standard input of a publisher

The publisher reads its standard input in lines and sends each as one message.  A box that
gets them holds the text of the input, with a space for each newline.
-/

namespace TecnicoFs
namespace Clients

open Library
open Broker

/-- The room for characters in {lit}`input[MSIZE]`. -/
def lineSize : Nat := msize - 1

/-- The bytes behind the line that is read. -/
def behindLine (input : CStr) : CStr where
  bytes := (fgets lineSize input.bytes).2
  noNul := fun h => input.noNul (fgets_append lineSize input.bytes ▸ List.mem_append_right _ h)

/-- `fgets(input, MSIZE, stdin)`, where there is something to read. -/
def readLine (input : CStr) (hne : input.bytes ≠ []) : InputLine where
  str := ⟨(fgets lineSize input.bytes).1, fun h =>
    input.noNul (fgets_append lineSize input.bytes ▸ List.mem_append_left _ h)⟩
  nonempty := by
    intro hzero
    exact hne ((fgets_eq_nil (by decide)).mp (List.length_eq_zero_iff.mp hzero))
  fits := by
    have hlength := fgets_length lineSize input.bytes
    have hsize : lineSize < msize := by decide
    exact Nat.lt_of_le_of_lt hlength hsize
  oneLine := fgets_oneLine lineSize input.bytes

/-- The loop over the lines of the standard input, with a bound on their number. -/
def linesWithin : (fuel : Nat) -> CStr -> List InputLine
  | 0, _ => []
  | fuel + 1, input =>
      if hne : input.bytes ≠ [] then readLine input hne :: linesWithin fuel (behindLine input)
      else []

/-- All lines of the standard input: each of them has a byte at least. -/
def inputLines (input : CStr) : List InputLine := linesWithin input.strlen input

section Lines

variable {input : CStr} {fuel : Nat} {lines : List (List UInt8)}

end Lines

end Clients
end TecnicoFs
