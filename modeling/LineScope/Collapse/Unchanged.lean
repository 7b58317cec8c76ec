import LineScope.Collapse.LogicalLines

/-! Collapsing all that lies outside the kept lines. -/
namespace LineScope

structure CollapseSummary where
  statements : Nat
  logicalLines : Nat
  deriving DecidableEq, Repr

def CollapseSummary.total (s : CollapseSummary) : Nat := s.statements + s.logicalLines

/-- Replaces all that stays clear of the ranges by verbatim leaves. Whole statements go first, if
asked for; after an error the tree is what had been reached by then. -/
def Tree.collapseUnchanged (t : Tree) (ranges : List LineRange) (wholeStatements : Bool) :
    Outcome CollapseSummary :=
  let keep := LineSet.ofRanges ranges
  let first := if wholeStatements then Collapse.statementPass keep t else ⟨t, .ok 0⟩
  match first with
  | ⟨t, .error e⟩ => ⟨t, .error e⟩
  | ⟨t, .ok statements⟩ =>
    match Collapse.linePass keep t with
    | ⟨t, .error e⟩ => ⟨t, .error e⟩
    | ⟨t, .ok logicalLines⟩ => ⟨t, .ok ⟨statements, logicalLines⟩⟩

end LineScope
