import LineScope.Collapse.Statements

/-! Second pass: logical lines, each being all up to one newline token. A statement that runs over
several physical lines is still one logical line. -/
namespace LineScope.Collapse

def newlines (t : Tree) : List NodeId := (t.leaves rootId).filter fun n => t.isToken n .newline

def matchHeader (t : Tree) (owner newline : NodeId) : Except CollapseError (List NodeId) :=
  match (t.children owner).takeWhile (· != newline) with
  | [] => .error (.emptyGroup newline .matchStmt)
  | header => .ok header

/-- The nodes in front of a suite, back to the suite before it if there is one. -/
def headerBefore (t : Tree) (before : List NodeId) : List NodeId :=
  (before.reverse.takeWhile fun n => !t.isSymbol n .suite).reverse

/-- The header of a suite, led by the `async` of its statement if it has one. -/
def suiteHeader (t : Tree) (suite newline : NodeId) : Except CollapseError (List NodeId) :=
  match t.parent? suite, t.siblings? suite with
  | some owner, some (before, _) =>
    match headerBefore t before, t.prevSibling? owner with
    | [], _ => .error (.emptyGroup newline .suite)
    | header, some prev => if t.isToken prev .async then .ok (prev :: header) else .ok header
    | header, none => .ok header
  | _, _ => .error (.emptyGroup newline .suite)

/-- A newline below neither a match nor a suite closes all that ends with it, and stacked decorators
go together. -/
def closedBy (t : Tree) (newline : NodeId) : NodeId :=
  let top := furthestEndingWith t newline
  match t.parent? top with
  | some parent =>
    if t.isSymbol top .decorator && t.isSymbol parent .decorators then parent else top
  | none => top

def collapseHeader (keep : LineSet) (t : Tree) :
    Except CollapseError (List NodeId) → Outcome Bool
  | .error e => ⟨t, .error e⟩
  | .ok header => if misses t keep header then collapseRun t header else ⟨t, .ok false⟩

def logicalLine (keep : LineSet) (t : Tree) (newline : NodeId) : Outcome Bool :=
  if !t.isAttached newline then ⟨t, .ok false⟩
  else match t.parent? newline with
    | none => ⟨t, .ok false⟩
    | some parent =>
      match t.symbol? parent with
      | some .matchStmt => collapseHeader keep t (matchHeader t parent newline)
      | some .suite => collapseHeader keep t (suiteHeader t parent newline)
      | _ =>
        let region := closedBy t newline
        if misses t keep [region] then collapseNode t region else ⟨t, .ok false⟩

def linePass (keep : LineSet) (t : Tree) : Outcome Nat :=
  sweep (logicalLine keep) t 0 (newlines t)

end LineScope.Collapse
