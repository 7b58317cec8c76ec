import LineScope.Range.Basic
import LineScope.Text.Quoted

/-! Reading `START-END` texts. Blanks and tabs may stand around either number. -/
namespace LineScope

/-- Why a text names no range of lines. Each cause carries the text. -/
inductive RangeError where
  | malformed (text : String)
  | tooLarge (text : String)
  | zero (text : String)
  | backwards (text : String)
  deriving DecidableEq, Repr

def RangeError.message : RangeError → String
  | .malformed text => "invalid line range " ++ Text.quoted text ++ ", expected START-END"
  | .tooLarge text => "line number out of range in " ++ Text.quoted text
  | .zero text => "line numbers start at 1, got " ++ Text.quoted text
  | .backwards text => "line range " ++ Text.quoted text ++ " ends before it starts"

namespace LineRange

def lineLimit : Nat := 1 <<< 64

def isBlank (c : Char) : Bool := c = ' ' || c = '\t'

/-- A number with blanks on both sides: its digits and what follows. -/
def numeral? (cs : List Char) : Option (List Char × List Char) :=
  let cs := cs.dropWhile isBlank
  match cs.takeWhile Char.isDigit with
  | [] => none
  | digits => some (digits, (cs.dropWhile Char.isDigit).dropWhile isBlank)

def numerals? (cs : List Char) : Option (List Char × List Char) :=
  match numeral? cs with
  | some (first, '-' :: rest) =>
    match numeral? rest with
    | some (second, []) => some (first, second)
    | _ => none
  | _ => none

def decimalValue (digits : List Char) : Nat :=
  digits.foldl (fun n c => 10 * n + (c.toNat - '0'.toNat)) 0

/-- Size comes before position: a number that is too large is reported ahead of a zero start, and
that ahead of a range that runs backwards. -/
def parse (text : String) : Except RangeError LineRange :=
  match numerals? text.toList with
  | none => .error (.malformed text)
  | some (first, second) =>
    let r : LineRange := ⟨decimalValue first, decimalValue second⟩
    if lineLimit ≤ r.start ∨ lineLimit ≤ r.stop then .error (.tooLarge text)
    else if r.start = 0 then .error (.zero text)
    else if r.stop < r.start then .error (.backwards text)
    else .ok r

end LineRange

end LineScope
