import LineScope.Proofs.Tree.LeafLines
import LineScope.Proofs.Tree.Walks

/-!
# Statements

The trees that stand for a program: files of statements, which are simple ones, blocks made of
clauses, possibly behind `async` and below decorators, and matches with their cases. A statement, a
decorated definition and a simple statement inside a clause may be verbatim.
-/
namespace LineScope

namespace TokenKind

/-- Kinds of tokens that stand inside a logical line. -/
def isOrdinary : TokenKind → Bool
  | .name | .number | .string | .op | .keyword => true
  | _ => false

theorem isLayout_eq_false {kind : TokenKind} (h : kind.isOrdinary = true) :
    kind.isLayout = false := by
  cases kind <;> first | rfl | cases h

end TokenKind

/-- Ordinary tokens, and nodes of them that have no meaning to collapsing. -/
inductive Shape.Plain : Shape → Prop
  | leaf {token : Leaf} (ordinary : token.kind.isOrdinary = true) : Plain (.leaf token)
  | node {name : String} {parts : List Shape} (nonempty : parts ≠ [])
      (plain : ∀ s ∈ parts, Plain s) : Plain (.node (.other name) parts)

namespace Grammar

inductive Line where
  | simple (parts : List Shape) (newline : Leaf)
  | verbatim (leaf : Leaf)

structure Decorator where
  parts : List Shape
  newline : Leaf

/-- An `async` token and the symbol of the node that holds it with its statement. -/
structure Lead where
  wrapper : Symbol
  key : Leaf

mutual

inductive Statement where
  | line (line : Line)
  | compound (decorators : List Decorator) (lead : Option Lead) (symbol : Symbol)
      (clauses : Clauses)
  | definition (decorators : List Decorator) (leaf : Leaf)
  | choice (header : List Shape) (newline indent : Leaf) (cases : Block) (dedent : Leaf)

inductive Block where
  | nil
  | cons (statement : Statement) (rest : Block)

/-- Headers with their bodies, each on the line of its header or in a suite below it. -/
inductive Clauses where
  | inline (header : List Shape) (body : List Line)
  | suite (header : List Shape) (newline indent : Leaf) (body : Block) (dedent : Leaf)
  | inlineThen (header : List Shape) (body : List Line) (rest : Clauses)
  | suiteThen (header : List Shape) (newline indent : Leaf) (body : Block) (dedent : Leaf)
      (rest : Clauses)

end

def Line.shape : Line → Shape
  | .simple parts newline => .node .simpleStmt (parts ++ [.leaf newline])
  | .verbatim leaf => .leaf leaf

def Decorator.shape (d : Decorator) : Shape := .node .decorator (d.parts ++ [.leaf d.newline])

def decoratorsShape : List Decorator → List Shape
  | [] => []
  | [d] => [d.shape]
  | ds => [.node .decorators (ds.map Decorator.shape)]

def decorate (decorators : List Decorator) (definition : Shape) : Shape :=
  match decorators with
  | [] => definition
  | ds => .node .decorated (decoratorsShape ds ++ [definition])

def leadShape (lead : Option Lead) (block : Shape) : Shape :=
  match lead with
  | none => block
  | some lead => .node lead.wrapper [.leaf lead.key, block]

def suiteShape (newline indent : Leaf) (body : List Shape) (dedent : Leaf) : Shape :=
  .node .suite (.leaf newline :: .leaf indent :: body ++ [.leaf dedent])

mutual

def Statement.shape : Statement → Shape
  | .line line => line.shape
  | .compound decorators lead symbol clauses =>
    decorate decorators (leadShape lead (.node symbol clauses.shapes))
  | .definition decorators leaf => decorate decorators (.leaf leaf)
  | .choice header newline indent cases dedent =>
    .node .matchStmt (header ++ .leaf newline :: .leaf indent :: cases.shapes ++ [.leaf dedent])

def Block.shapes : Block → List Shape
  | .nil => []
  | .cons statement rest => statement.shape :: rest.shapes

def Clauses.shapes : Clauses → List Shape
  | .inline header body => header ++ body.map Line.shape
  | .suite header newline indent body dedent =>
    header ++ [suiteShape newline indent body.shapes dedent]
  | .inlineThen header body rest => header ++ body.map Line.shape ++ rest.shapes
  | .suiteThen header newline indent body dedent rest =>
    header ++ suiteShape newline indent body.shapes dedent :: rest.shapes

end

def Statement.tokens (s : Statement) : List Leaf := s.shape.tokens

def Block.tokens (b : Block) : List Leaf := Shape.tokensOfAll b.shapes

def Clauses.tokens (c : Clauses) : List Leaf := Shape.tokensOfAll c.shapes

/-- The part of a logical line before the token that ends it. -/
def IsHeader (parts : List Shape) : Prop := parts ≠ [] ∧ ∀ s ∈ parts, s.Plain

def Line.Wf : Line → Prop
  | .simple parts newline => IsHeader parts ∧ newline.kind = .newline
  | .verbatim leaf => leaf.kind = .verbatim

def Decorator.Wf (d : Decorator) : Prop := IsHeader d.parts ∧ d.newline.kind = .newline

def Lead.Wf (lead : Lead) : Prop :=
  lead.wrapper ∈ [Symbol.asyncStmt, .asyncFuncdef] ∧ lead.key.kind = .async

def blockForms : List Symbol :=
  [.funcdef, .classdef, .ifStmt, .forStmt, .whileStmt, .tryStmt, .withStmt, .caseBlock]

mutual

def Statement.Wf : Statement → Prop
  | .line line => line.Wf
  | .compound decorators lead symbol clauses =>
    (∀ d ∈ decorators, d.Wf) ∧ (∀ l ∈ lead, l.Wf) ∧ symbol ∈ blockForms ∧ clauses.Wf
  | .definition decorators leaf =>
    decorators ≠ [] ∧ (∀ d ∈ decorators, d.Wf) ∧ leaf.kind = .verbatim
  | .choice header newline indent cases dedent =>
    IsHeader header ∧ newline.kind = .newline ∧ indent.kind = .indent ∧ cases.Wf ∧
      dedent.kind = .dedent

def Block.Wf : Block → Prop
  | .nil => True
  | .cons statement rest => statement.Wf ∧ rest.Wf

def Clauses.Wf : Clauses → Prop
  | .inline header body => IsHeader header ∧ body ≠ [] ∧ ∀ line ∈ body, line.Wf
  | .suite header newline indent body dedent =>
    IsHeader header ∧ newline.kind = .newline ∧ indent.kind = .indent ∧ body.Wf ∧
      dedent.kind = .dedent
  | .inlineThen header body rest =>
    (IsHeader header ∧ body ≠ [] ∧ ∀ line ∈ body, line.Wf) ∧ rest.Wf
  | .suiteThen header newline indent body dedent rest =>
    (IsHeader header ∧ newline.kind = .newline ∧ indent.kind = .indent ∧ body.Wf ∧
      dedent.kind = .dedent) ∧ rest.Wf

end

mutual

/-- Every header of a clause or a match has a property. -/
def Statement.Headers (P : List Shape → Prop) : Statement → Prop
  | .line _ => True
  | .compound _ _ _ clauses => clauses.Headers P
  | .definition _ _ => True
  | .choice header _ _ cases _ => P header ∧ cases.Headers P

def Block.Headers (P : List Shape → Prop) : Block → Prop
  | .nil => True
  | .cons statement rest => statement.Headers P ∧ rest.Headers P

def Clauses.Headers (P : List Shape → Prop) : Clauses → Prop
  | .inline header _ => P header
  | .suite header _ _ body _ => P header ∧ body.Headers P
  | .inlineThen header _ rest => P header ∧ rest.Headers P
  | .suiteThen header _ _ body _ rest => (P header ∧ body.Headers P) ∧ rest.Headers P

end

def fileShape (block : Block) (endMarker : Leaf) : Shape :=
  .node .fileInput (block.shapes ++ [.leaf endMarker])

end Grammar

end LineScope
