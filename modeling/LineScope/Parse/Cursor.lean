import LineScope.Text.Alphabetic
import LineScope.Text.LineIndex
import LineScope.Tree.Leaf

/-! Cutting a source into leaves from front to back. What lies between two tokens becomes the trivia
of the second, so nothing is lost. -/
namespace LineScope.Parse

structure Source where
  chars : List Char
  index : Text.LineIndex
  /-- Number of bytes. -/
  length : Nat

def Source.ofText (s : String) : Source :=
  ⟨s.toList, .ofText s.toList, Text.byteLength s.toList⟩

/-- How far the source has been cut, and the line on which the last leaf ended. -/
structure Cursor where
  offset : Nat
  lastLine : Nat
  deriving DecidableEq, Repr

namespace Cursor

def start : Cursor := ⟨0, 1⟩

/-- Cuts the next token; a span that begins before the cursor is cut short. -/
def take (source : Source) (c : Cursor) (kind : TokenKind) (start stop : Nat) : Leaf × Cursor :=
  let start := min (max start c.offset) source.length
  let stop := min (max stop start) source.length
  let leaf : Leaf := {
    kind
    trivia := String.ofList (Text.slice source.chars c.offset start)
    value := String.ofList (Text.slice source.chars start stop)
    line := source.index.lineOf start }
  (leaf, ⟨stop, leaf.endLine⟩)

def lineBreak? (source : Source) (c : Cursor) : Option Nat :=
  (Text.lineFeed? (Text.slice source.chars c.offset source.length)).map (c.offset + ·)

/-- Cuts the newline that ends the current line, empty at the end of the source. -/
def takeNewline (source : Source) (c : Cursor) : Leaf × Cursor :=
  match c.lineBreak? source with
  | none => c.take source .newline source.length source.length
  | some feed =>
    if c.offset < feed ∧ Text.terminatorLength source.chars (feed - 1) = 2 then
      c.take source .newline (feed - 1) (feed + 1)
    else c.take source .newline feed (feed + 1)

def onCurrentLine (source : Source) (c : Cursor) (offset : Nat) : Bool :=
  match c.lineBreak? source with
  | none => true
  | some feed => offset < feed

end Cursor

def marker (kind : TokenKind) (line : Nat) : Leaf := ⟨kind, "", "", line⟩

def containsRun (run : List Char) : List Char → Bool
  | [] => run.isEmpty
  | c :: cs => run.isPrefixOf (c :: cs) || containsRun run cs

/-- A word is a keyword unless the grammar calls it an identifier. -/
def tokenKind (kind : String) (text : List Char) : TokenKind :=
  if kind = "string" then .string
  else if kind = "integer" ∨ kind = "float" then .number
  else if containsRun "identifier".toList kind.toList then .name
  else match text with
    | [] => .op
    | c :: _ =>
      if c.isDigit then .number
      else if text.all fun c => Text.isAlphabetic c || c = '_' then .keyword
      else .op

end LineScope.Parse
