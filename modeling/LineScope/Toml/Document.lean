import LineScope.Toml.Moment
import LineScope.Toml.Number

/-! Values, keys and whole documents. -/
namespace LineScope.Toml

def isBareKey (c : Char) : Bool := c.isAlphanum || c = '_' || c = '-'

def simpleKey : Reader String := do
  match ← Reader.ahead with
  | '"' :: _ => lineString '"'
  | '\'' :: _ => lineString '\''
  | _ =>
    let word ← Reader.takeAll isBareKey
    if word.isEmpty then failure
    return String.ofList word

def keyPath : Nat → Reader (List String)
  | 0 => failure
  | steps + 1 => do
    let key ← simpleKey
    skipBlanks
    match ← Reader.ahead with
    | '.' :: _ =>
      Reader.skip 1
      skipBlanks
      return key :: (← keyPath steps)
    | _ => return [key]

def keyLimit : Nat := 80

def key : Reader (List String) := keyPath keyLimit

/-- All but blanks, line ends and the marks around values. -/
def isWordChar (c : Char) : Bool := !"=,[]\x7b\x7d# \t\r\n".toList.contains c

def resumesWord (c : Char) : Bool := isWordChar c && c ≠ '.' && c ≠ '"' && c ≠ '\''

/-- A word, in at most so many pieces with blanks between them, such as a date and a time. -/
def pieces : Nat → Reader (List Char)
  | 0 => failure
  | steps + 1 => do
    let first ← Reader.takeAll isWordChar
    let rest ← Reader.ahead
    match rest.dropWhile isBlank with
    | [] => return first
    | c :: _ =>
      if resumesWord c then
        let blanks ← Reader.takeAll isBlank
        return first ++ blanks ++ (← pieces steps)
      else return first

def word : Reader (List Char) := do pieces ((← Reader.ahead).length + 1)

def scalar? (word : List Char) : Option Value :=
  if word = "true".toList then some (.boolean true)
  else if word = "false".toList then some (.boolean false)
  else if isMoment word then some .moment
  else match integer? word with
    | some n => some (.integer n)
    | none => (float? word).map .float

/-- Items with commas between them up to the bracket that closes them, in at most so many steps. A
comma may follow the last item. -/
def itemsUntil (close : Char) (item : Reader α) : Nat → Reader (List α)
  | 0 => failure
  | steps + 1 => do
    skipSpace
    match ← Reader.ahead with
    | [] => failure
    | c :: _ =>
      if c = close then
        Reader.skip 1
        return []
      let first ← item
      skipSpace
      match ← Reader.ahead with
      | ',' :: _ =>
        Reader.skip 1
        return first :: (← itemsUntil close item steps)
      | _ =>
        Reader.expect [close]
        return [first]

def assignment (space : Reader Unit) (value : Reader Value) : Reader (List String × Value) := do
  let path ← key
  space
  Reader.expect ['=']
  space
  return (path, ← value)

def plainValue : Reader Value := do
  match ← Reader.ahead with
  | '"' :: '"' :: '"' :: _ => return .string (← linesString '"')
  | '"' :: _ => return .string (← lineString '"')
  | '\'' :: '\'' :: '\'' :: _ => return .string (← linesString '\'')
  | '\'' :: _ => return .string (← lineString '\'')
  | _ => scalar? (← word)

/-- A value with at most so many brackets and braces around any part of it. Only between them can
it stand on several lines. -/
def value : Nat → Reader Value
  | 0 => plainValue
  | levels + 1 => do
    let cs ← Reader.ahead
    match cs with
    | '[' :: _ =>
      Reader.skip 1
      return .array (← itemsUntil ']' (value levels) cs.length)
    | '\x7b' :: _ =>
      Reader.skip 1
      let assignments ← itemsUntil '\x7d' (assignment skipSpace (value levels)) cs.length
      return .table .braced (← Entries.ofAssignments? assignments)
    | _ => plainValue

def nestingLimit : Nat := 80

def statement : Reader (Option Statement) := do
  skipBlanks
  let result ← match ← Reader.ahead with
    | [] => pure none
    | '\n' :: _ => pure none
    | '\r' :: _ => pure none
    | '#' :: _ => pure none
    | '[' :: '[' :: _ => do
      Reader.skip 2
      skipBlanks
      let path ← key
      Reader.expect [']', ']']
      pure (some (.nextHeader path))
    | '[' :: _ => do
      Reader.skip 1
      skipBlanks
      let path ← key
      Reader.expect [']']
      pure (some (.header path))
    | _ => do
      let (path, value) ← assignment skipBlanks (value nestingLimit)
      pure (some (.assignment path value))
  endOfLine
  return result

def statements : Nat → Reader (List Statement)
  | 0 => failure
  | steps + 1 => do
    match ← Reader.ahead with
    | [] => return []
    | _ =>
      match ← statement with
      | none => statements steps
      | some first => return first :: (← statements steps)

def dropByteOrderMark : List Char → List Char
  | c :: cs => if c = '\ufeff' then cs else c :: cs
  | [] => []

def parse? (text : String) : Option Entries := do
  let cs := dropByteOrderMark text.toList
  let (lines, _) ← statements (cs.length + 1) cs
  Entries.ofStatements? lines

end LineScope.Toml
