import LineScope.Diff.Compact
import LineScope.Diff.Patience
import LineScope.Diff.Table

/-! Runs of equal lines in two versions of a text. -/
namespace LineScope.Diff

inductive Algorithm where
  | myers
  | patience
  | lcs
  deriving DecidableEq, Repr

def script (v : Versions) : Algorithm → List Op
  | .myers => myers v v.whole
  | .patience => patience v
  | .lcs => byTable v

/-- `length` lines from index `old` on equal those from index `new` on. -/
structure Run where
  old : Nat
  new : Nat
  length : Nat
  deriving DecidableEq, Repr

def Op.run? (op : Op) : Option Run :=
  if op.tag = .keep then some ⟨op.old, op.new, op.length⟩ else none

def equalRuns (v : Versions) (algorithm : Algorithm) : List Run :=
  (compact v (script v algorithm)).filterMap Op.run?

end LineScope.Diff
