import LineScope.Text.Bytes
import LineScope.Tree.Token

/-! Tokens with the trivia in front of them, and the text of a run of tokens. -/
namespace LineScope

structure Leaf where
  kind : TokenKind
  /-- Blanks, comments and continuation lines in front of the token. -/
  trivia : String
  value : String
  /-- The line on which the token itself starts. -/
  line : Nat
  deriving DecidableEq, Repr

namespace Leaf

/-- The line on which the token itself ends; a newline ends on the line it terminates. -/
def endLine (leaf : Leaf) : Nat :=
  match leaf.kind with
  | .newline => leaf.line
  | _ => leaf.line + Text.lineFeeds leaf.value.toList

/-- The line break owed between a leaf and what follows it: a verbatim leaf gave up its own, unless
a newline comes next or nothing does. -/
def breakAfter (leaf : Leaf) : List Leaf → String
  | [] => ""
  | next :: _ => if leaf.kind = .verbatim ∧ next.kind ≠ .newline then "\n" else ""

def render : List Leaf → String
  | [] => ""
  | leaf :: rest => leaf.trivia ++ leaf.value ++ leaf.breakAfter rest ++ render rest

end Leaf

end LineScope
