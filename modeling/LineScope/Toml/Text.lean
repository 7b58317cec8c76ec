import LineScope.Toml.Reader

/-! Strings. -/
namespace LineScope.Toml

def hexValue? (c : Char) : Option Nat :=
  if '0' ≤ c ∧ c ≤ '9' then some (c.toNat - '0'.toNat)
  else if 'a' ≤ c ∧ c ≤ 'f' then some (c.toNat - 'a'.toNat + 10)
  else if 'A' ≤ c ∧ c ≤ 'F' then some (c.toNat - 'A'.toNat + 10)
  else none

def codePoint (digits : Nat) : Reader Char := do
  let cs ← Reader.ahead
  if cs.length < digits then failure
  let n ← (cs.take digits).foldlM (fun n c => (hexValue? c).map (16 * n + ·)) 0
  Reader.skip digits
  if h : n.isValidChar then return Char.ofNatAux n h else failure

def escape : Reader Char := do
  let cs ← Reader.ahead
  Reader.skip 1
  match cs with
  | 'b' :: _ => return '\x08'
  | 't' :: _ => return '\t'
  | 'n' :: _ => return '\n'
  | 'f' :: _ => return '\x0c'
  | 'r' :: _ => return '\r'
  | 'e' :: _ => return '\x1b'
  | '"' :: _ => return '"'
  | '\\' :: _ => return '\\'
  | 'x' :: _ => codePoint 2
  | 'u' :: _ => codePoint 4
  | 'U' :: _ => codePoint 8
  | _ => failure

def restOfString (quote : Char) (escapes : Bool) : Nat → Reader (List Char)
  | 0 => failure
  | steps + 1 => do
    match ← Reader.ahead with
    | [] => failure
    | c :: _ =>
      Reader.skip 1
      if c = quote then return []
      else if c = '\\' && escapes then
        let c ← escape
        return c :: (← restOfString quote escapes steps)
      else if isPlain c then return c :: (← restOfString quote escapes steps)
      else failure

/-- Skips a line break behind a backslash, and all blanks and line breaks after it. -/
def skipFold : Nat → Reader Unit
  | 0 => return
  | steps + 1 => do
    skipBlanks
    match ← Reader.ahead with
    | '\n' :: _ => lineBreak; skipFold steps
    | '\r' :: _ => lineBreak; skipFold steps
    | _ => return

/-- The rest of a string over several lines. It ends with three quotes, and up to two more before
them belong to the text. -/
def restOfLines (quote : Char) (escapes : Bool) : Nat → Reader (List Char)
  | 0 => failure
  | steps + 1 => do
    match ← Reader.ahead with
    | [] => failure
    | c :: rest =>
      if c = quote then
        let quotes ← Reader.takeAll (· = quote)
        if 5 < quotes.length then failure
        else if 3 ≤ quotes.length then return quotes.drop 3
        else return quotes ++ (← restOfLines quote escapes steps)
      else if c = '\\' && escapes then
        Reader.skip 1
        match rest.dropWhile isBlank with
        | '\n' :: _ => skipFold rest.length; restOfLines quote escapes steps
        | '\r' :: _ => skipFold rest.length; restOfLines quote escapes steps
        | _ =>
          let c ← escape
          return c :: (← restOfLines quote escapes steps)
      else if isPlain c then
        Reader.skip 1
        return c :: (← restOfLines quote escapes steps)
      else
        lineBreak
        return '\n' :: (← restOfLines quote escapes steps)

def lineString (quote : Char) : Reader String := do
  Reader.expect [quote]
  return String.ofList (← restOfString quote (quote = '"') (← Reader.ahead).length)

/-- A string over several lines, its first quotes still ahead. A line break right after them does
not count. -/
def linesString (quote : Char) : Reader String := do
  Reader.expect [quote, quote, quote]
  match ← Reader.ahead with
  | '\n' :: _ => lineBreak
  | '\r' :: _ => lineBreak
  | _ => pure ()
  return String.ofList (← restOfLines quote (quote = '"') (← Reader.ahead).length)

end LineScope.Toml
