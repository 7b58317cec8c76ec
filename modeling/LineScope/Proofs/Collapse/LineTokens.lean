import LineScope.Proofs.Collapse.Grammar
import LineScope.Proofs.Collapse.Region

/-!
# What the line pass leaves of a program

The tokens that are left of each statement once every logical line that is clear of the kept ones has
become verbatim. The header of a suite takes with it whatever stands between it and the suite before,
and an `async` in front of the first one. If that is not clear, no later header is either.
-/
namespace LineScope

/-- Tokens that are not verbatim end before those after them start. -/
def Leaf.Ordered (tokens : List Leaf) : Prop :=
  tokens.Pairwise fun a b => a.kind ≠ .verbatim → a.endLine ≤ b.line

namespace Collapse

open Grammar

def fold : List Leaf → List Leaf
  | [] => []
  | leaf :: more => [verbatim leaf (Leaf.render (leaf.bare :: more))]

def sealRun (keep : LineSet) (tokens : List Leaf) : List Leaf :=
  if clear keep tokens then fold tokens else tokens

def endsLine (tokens : List Leaf) : Bool := tokens.getLast?.any fun leaf => leaf.kind = .newline

/-- A statement with something after it goes with the newline that ends it. -/
def sealClosed (keep : LineSet) (tokens : List Leaf) : List Leaf :=
  if endsLine tokens then sealRun keep tokens else tokens

/-- Simple statements on one line; the last is closed only if something follows. -/
def lineTokens (keep : LineSet) (closed : Bool) : List Line → List Leaf
  | [] => []
  | [line] => if closed then sealClosed keep line.shape.tokens else line.shape.tokens
  | line :: next :: rest =>
    sealClosed keep line.shape.tokens ++ lineTokens keep closed (next :: rest)

/-- How headers are treated: those without `async`, the first one with it, those after a first one
that was kept. -/
inductive Mode where
  | free
  | led
  | pinned
  deriving DecidableEq

def Mode.next (keep : LineSet) (header : List Leaf) : Mode → Mode
  | .free => .free
  | .led => if clear keep header then .free else .pinned
  | .pinned => .pinned

def sealHeader (keep : LineSet) (mode : Mode) (header : List Leaf) : List Leaf :=
  if mode = .pinned then header else sealRun keep header

def suiteTokens (newline indent : Leaf) (body : List Leaf) (dedent : Leaf) : List Leaf :=
  newline :: indent :: body ++ [dedent]

theorem sublist_suiteTokens (newline indent : Leaf) (body : List Leaf) (dedent : Leaf) :
    body.Sublist (suiteTokens newline indent body dedent) :=
  (((List.sublist_append_left body _).cons _).cons _)

section Tokens

variable (decorators : List Decorator) (lead : Option Lead) (symbol : Symbol)
  (header : List Shape) (newline indent dedent leaf : Leaf) (body : Block) (lines : List Line)
  (rest : Clauses)

theorem tokens_decorate (shape : Shape) : (decorate decorators shape).tokens =
    Shape.tokensOfAll (decoratorsShape decorators) ++ shape.tokens := by
  cases decorators with
  | nil => simp [decorate, decoratorsShape, Shape.tokensOfAll]
  | cons d ds => simp [decorate, Shape.tokens, Shape.tokensOfAll]

theorem tokens_compound : (Statement.compound decorators lead symbol rest).tokens =
    Shape.tokensOfAll (decoratorsShape decorators) ++ lead.toList.map Lead.key ++ rest.tokens := by
  rw [Statement.tokens, Statement.shape, tokens_decorate]
  cases lead <;> simp [leadShape, Shape.tokens, Shape.tokensOfAll, Clauses.tokens]

theorem tokens_definition : (Statement.definition decorators leaf).tokens =
    Shape.tokensOfAll (decoratorsShape decorators) ++ [leaf] := by
  rw [Statement.tokens, Statement.shape, tokens_decorate, Shape.tokens]

theorem tokens_choice : (Statement.choice header newline indent body dedent).tokens =
    Shape.tokensOfAll header ++ suiteTokens newline indent body.tokens dedent := by
  simp [Statement.tokens, Statement.shape, suiteTokens, Shape.tokens, Shape.tokensOfAll,
    Block.tokens]

theorem tokens_inline : (Clauses.inline header lines).tokens =
    Shape.tokensOfAll header ++ Shape.tokensOfAll (lines.map Line.shape) := by
  simp [Clauses.tokens, Clauses.shapes]

theorem tokens_suiteShape : (suiteShape newline indent body.shapes dedent).tokens =
    suiteTokens newline indent body.tokens dedent := by
  simp [suiteShape, suiteTokens, Shape.tokens, Shape.tokensOfAll, Block.tokens]

theorem tokens_suite : (Clauses.suite header newline indent body dedent).tokens =
    Shape.tokensOfAll header ++ suiteTokens newline indent body.tokens dedent := by
  simp [Clauses.tokens, Clauses.shapes, Shape.tokensOfAll, tokens_suiteShape]

theorem tokens_inlineThen : (Clauses.inlineThen header lines rest).tokens =
    Shape.tokensOfAll header ++ Shape.tokensOfAll (lines.map Line.shape) ++ rest.tokens := by
  simp [Clauses.tokens, Clauses.shapes]

theorem tokens_suiteThen : (Clauses.suiteThen header newline indent body dedent rest).tokens =
    Shape.tokensOfAll header ++ (suiteTokens newline indent body.tokens dedent ++ rest.tokens) := by
  simp [Clauses.tokens, Clauses.shapes, Shape.tokensOfAll, tokens_suiteShape]

end Tokens

mutual

/-- A statement before the newline that ends it is dealt with. -/
def innerTokens (keep : LineSet) : Statement → List Leaf
  | .line line => line.shape.tokens
  | .compound decorators lead _ clauses =>
    sealRun keep (Shape.tokensOfAll (decoratorsShape decorators)) ++
      match lead with
      | none => clauseTokens keep .free [] clauses
      | some lead => clauseTokens keep .led [lead.key] clauses
  | .definition decorators leaf =>
    sealRun keep (Shape.tokensOfAll (decoratorsShape decorators)) ++ [leaf]
  | .choice header newline indent cases dedent =>
    sealRun keep (Shape.tokensOfAll header) ++
      suiteTokens newline indent (blockTokens keep cases) dedent

def blockTokens (keep : LineSet) : Block → List Leaf
  | .nil => []
  | .cons statement rest => sealClosed keep (innerTokens keep statement) ++ blockTokens keep rest

/-- Clauses after the tokens `before`, which stand behind the last suite. -/
def clauseTokens (keep : LineSet) (mode : Mode) (before : List Leaf) : Clauses → List Leaf
  | .inline header body => before ++ Shape.tokensOfAll header ++ lineTokens keep false body
  | .suite header newline indent body dedent =>
    sealHeader keep mode (before ++ Shape.tokensOfAll header) ++
      suiteTokens newline indent (blockTokens keep body) dedent
  | .inlineThen header body rest =>
    clauseTokens keep mode (before ++ Shape.tokensOfAll header ++ lineTokens keep true body) rest
  | .suiteThen header newline indent body dedent rest =>
    sealHeader keep mode (before ++ Shape.tokensOfAll header) ++
      suiteTokens newline indent (blockTokens keep body) dedent ++
      clauseTokens keep (mode.next keep (before ++ Shape.tokensOfAll header)) [] rest

end

end Collapse

end LineScope
