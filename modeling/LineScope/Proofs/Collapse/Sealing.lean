import LineScope.Proofs.Collapse.LineTokens

/-!
# What the statement pass makes of a program

The program that is left once every statement that is clear of the kept lines has become verbatim. A
block goes at its first suite, as it stands then: the simple statements before that suite have been
dealt with. Decorators stay when their block goes at a suite.
-/
namespace LineScope

namespace Grammar

def Clauses.hasSuite : Clauses → Bool
  | .inline _ _ => false
  | .suite _ _ _ _ _ => true
  | .inlineThen _ _ rest => rest.hasSuite
  | .suiteThen _ _ _ _ _ _ => true

def Clauses.endsInline : Clauses → Bool
  | .inline _ _ => true
  | .suite _ _ _ _ _ => false
  | .inlineThen _ _ rest => rest.endsInline
  | .suiteThen _ _ _ _ _ rest => rest.endsInline

mutual

/-- Decorators are in front of no block that has a suite and ends without one. What is inside suites
does not count. -/
def Statement.WellDecorated : Statement → Prop
  | .line _ => True
  | .compound decorators _ _ clauses =>
    decorators ≠ [] → clauses.hasSuite = true → clauses.endsInline = false
  | .definition _ _ => True
  | .choice _ _ _ cases _ => cases.WellDecorated

def Block.WellDecorated : Block → Prop
  | .nil => True
  | .cons statement rest => statement.WellDecorated ∧ rest.WellDecorated

end

end Grammar

namespace Collapse

open Grammar

/-- The verbatim leaf for some tokens, if they are clear of the kept lines. -/
def sealed? (keep : LineSet) : List Leaf → Option Leaf
  | [] => none
  | leaf :: more =>
    if clear keep (leaf :: more) then some (verbatim leaf (Leaf.render (leaf.bare :: more)))
    else none

def sealLine (keep : LineSet) : Line → Line
  | .simple parts newline =>
    match sealed? keep (Line.simple parts newline).shape.tokens with
    | some leaf => .verbatim leaf
    | none => .simple parts newline
  | .verbatim leaf => .verbatim leaf

def sealInit (keep : LineSet) : List Line → List Line
  | [] => []
  | [line] => [line]
  | line :: next :: rest => sealLine keep line :: sealInit keep (next :: rest)

theorem sealInit_concat (keep : LineSet) (init : List Line) (last : Line) :
    sealInit keep (init ++ [last]) = init.map (sealLine keep) ++ [last] := by
  induction init with
  | nil => rfl
  | cons line init ih =>
    cases init with
    | nil => rfl
    | cons next init =>
      rw [List.cons_append, List.cons_append, sealInit, ← List.cons_append, ih]
      rfl

/-- The simple statements in clauses, except the one at the very end. -/
def sealClauses (keep : LineSet) : Clauses → Clauses
  | .inline header body => .inline header (sealInit keep body)
  | .suite header newline indent body dedent => .suite header newline indent body dedent
  | .inlineThen header body rest =>
    .inlineThen header (body.map (sealLine keep)) (sealClauses keep rest)
  | .suiteThen header newline indent body dedent rest =>
    .suiteThen header newline indent body dedent (sealClauses keep rest)

def sealToSuite (keep : LineSet) : Clauses → Clauses
  | .inlineThen header body rest =>
    .inlineThen header (body.map (sealLine keep)) (sealToSuite keep rest)
  | clauses => clauses

def leadTokens (lead : Option Lead) : List Leaf := lead.toList.map Lead.key

def sealedBlock? (keep : LineSet) (lead : Option Lead) (clauses : Clauses) : Option Leaf :=
  if clauses.hasSuite then sealed? keep (leadTokens lead ++ (sealToSuite keep clauses).tokens)
  else none

def sealedWhole? (keep : LineSet) (decorators : List Decorator) (lead : Option Lead)
    (symbol : Symbol) (clauses : Clauses) : Option Leaf :=
  if clauses.endsInline then
    sealed? keep (Statement.compound decorators lead symbol (sealClauses keep clauses)).tokens
  else none

def standIn (decorators : List Decorator) (leaf : Leaf) : Statement :=
  if decorators.isEmpty then .line (.verbatim leaf) else .definition decorators leaf

theorem shape_standIn (decorators : List Decorator) (leaf : Leaf) :
    (standIn decorators leaf).shape = decorate decorators (.leaf leaf) := by
  cases decorators <;> rfl

mutual

def sealStatement (keep : LineSet) : Statement → Statement
  | .line line => .line (sealLine keep line)
  | .compound decorators lead symbol clauses =>
    match sealedBlock? keep lead clauses with
    | some leaf => standIn decorators leaf
    | none =>
      match sealedWhole? keep decorators lead symbol clauses with
      | some leaf => .line (.verbatim leaf)
      | none => .compound decorators lead symbol (sealClauses keep clauses)
  | .definition decorators leaf => .definition decorators leaf
  | .choice header newline indent options dedent =>
    .choice header newline indent (sealBlock keep options) dedent

def sealBlock (keep : LineSet) : Block → Block
  | .nil => .nil
  | .cons statement rest => .cons (sealStatement keep statement) (sealBlock keep rest)

end

end Collapse

end LineScope
