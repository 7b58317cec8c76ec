import LineScope.Text.Bisect
import LineScope.Text.Bytes

/-! Lines of byte offsets. Lines count from 1, and a line feed belongs to the line it ends. -/
namespace LineScope.Text

def startsAfter : Nat → List UInt8 → List Nat
  | _, [] => []
  | offset, b :: bs =>
    if b = 10 then (offset + 1) :: startsAfter (offset + 1) bs else startsAfter (offset + 1) bs

/-- Byte offsets at which the lines of a text start, ascending. -/
structure LineIndex where
  starts : Array Nat
  deriving DecidableEq, Repr

def LineIndex.ofText (cs : List Char) : LineIndex := ⟨(0 :: startsAfter 0 (encode cs)).toArray⟩

/-- The line of a byte; offsets past the end belong to the last line. -/
def LineIndex.lineOf (index : LineIndex) (offset : Nat) : Nat := countUpTo index.starts offset

/-- Length in bytes of the line terminator at `offset`: 2 for CRLF, 1 for LF, otherwise 0. -/
def terminatorLength (cs : List Char) (offset : Nat) : Nat :=
  match (encode cs).drop offset with
  | 13 :: 10 :: _ => 2
  | 10 :: _ => 1
  | _ => 0

end LineScope.Text
