import LineScope.Parse.Report

/-! Parse trees without extras. -/
namespace LineScope.Parse

inductive Construct where
  /-- A childless node has not even extras below it. -/
  | node (kind : String) (start stop : Nat) (childless : Bool) (parts : List Construct)
  deriving Repr

namespace Construct

def kind : Construct → String
  | .node kind _ _ _ _ => kind

def start : Construct → Nat
  | .node _ start _ _ _ => start

end Construct

mutual

def Report.construct : Report → Construct
  | .node mark children =>
    .node mark.kind mark.start mark.stop children.isEmpty (constructs children)

def Report.constructs : List Report → List Construct
  | [] => []
  | report :: rest =>
    if report.mark.isExtra then constructs rest else report.construct :: constructs rest

end

def Report.parts : Report → List Construct
  | .node _ children => Report.constructs children

end LineScope.Parse
