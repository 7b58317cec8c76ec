/-! Readers take something from the front of a text and leave the rest, or fail. -/
namespace LineScope.Toml

abbrev Reader (α : Type) := StateT (List Char) Option α

namespace Reader

def expect (run : List Char) : Reader Unit := fun cs =>
  if run.isPrefixOf cs then some ((), cs.drop run.length) else none

def takeAll (p : Char → Bool) : Reader (List Char) := fun cs =>
  some (cs.takeWhile p, cs.dropWhile p)

def ahead : Reader (List Char) := get

def skip (n : Nat) : Reader Unit := modify (·.drop n)

end Reader

def isBlank (c : Char) : Bool := c = ' ' || c = '\t'

/-- Allowed in comments and strings: all but control characters, and tabs. -/
def isPlain (c : Char) : Bool := c = '\t' || (' ' ≤ c && c ≠ '\x7f')

def skipBlanks : Reader Unit := do discard (Reader.takeAll isBlank)

def lineBreak : Reader Unit := do
  match ← Reader.ahead with
  | '\n' :: _ => Reader.skip 1
  | '\r' :: '\n' :: _ => Reader.skip 2
  | _ => failure

def skipComment : Reader Unit := do
  match ← Reader.ahead with
  | '#' :: _ => discard (Reader.takeAll isPlain)
  | _ => return

def endOfLine : Reader Unit := do
  skipBlanks
  skipComment
  match ← Reader.ahead with
  | [] => return
  | _ => lineBreak

def skipLines : Nat → Reader Unit
  | 0 => return
  | steps + 1 => do
    skipBlanks
    skipComment
    match ← Reader.ahead with
    | '\n' :: _ => lineBreak; skipLines steps
    | '\r' :: _ => lineBreak; skipLines steps
    | _ => return

def skipSpace : Reader Unit := do skipLines ((← Reader.ahead).length + 1)

end LineScope.Toml
