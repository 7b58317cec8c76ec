import LineScope.Collapse.Outcome

/-! First pass: whole statements. Nothing below a simple statement or a suite is looked at on its
own, so a large unchanged definition costs one test. -/
namespace LineScope.Collapse

/-- Simple statements and suites reached without passing through another. They are listed before any
is replaced: replacing one changes only the child lists of nodes above it. -/
def statementsBelow (t : Tree) : Nat → List NodeId → List NodeId
  | 0, _ => []
  | _, [] => []
  | steps + 1, n :: pending =>
    match t.symbol? n with
    | some .simpleStmt => n :: statementsBelow t steps pending
    | some .suite => n :: statementsBelow t steps pending
    | some _ => statementsBelow t steps (t.children n ++ pending)
    | none => statementsBelow t steps pending

def statements (t : Tree) : List NodeId := statementsBelow t t.size [rootId]

/-- A one-line body such as `if x: pass` has no suite, and its newline ends the statement around
it: what collapses is all that ends with this newline. -/
def simpleStatement (keep : LineSet) (t : Tree) (n : NodeId) : Outcome Bool :=
  match t.lastLeaf? n with
  | none => ⟨t, .ok false⟩
  | some newline =>
    if t.isToken newline .newline then
      let region := furthestEndingWith t newline
      if misses t keep [region] then collapseNode t region else ⟨t, .ok false⟩
    else ⟨t, .error (.missingNewline n (t.kind? newline))⟩

def containsVerbatim (t : Tree) (n : NodeId) : Bool :=
  (t.leaves n).any fun leaf => t.isToken leaf .verbatim

def followsAsync (t : Tree) (n : NodeId) : Bool :=
  (t.prevSibling? n).any fun prev => t.isToken prev .async

/-- The statement that a suite belongs to, with its `async` if it has one. -/
def suiteOwner? (t : Tree) (suite : NodeId) : Option NodeId :=
  match t.parent? suite with
  | none => none
  | some owner => if followsAsync t owner then t.parent? owner else some owner

/-- A suite goes with the statement it belongs to, unless part of it is verbatim already. -/
def suite (keep : LineSet) (t : Tree) (n : NodeId) : Outcome Bool :=
  if containsVerbatim t n then ⟨t, .ok false⟩
  else match suiteOwner? t n with
    | none => ⟨t, .ok false⟩
    | some region => if misses t keep [region] then collapseNode t region else ⟨t, .ok false⟩

def statement (keep : LineSet) (t : Tree) (n : NodeId) : Outcome Bool :=
  if t.isSymbol n .simpleStmt then simpleStatement keep t n else suite keep t n

def statementPass (keep : LineSet) (t : Tree) : Outcome Nat :=
  sweep (statement keep) t 0 (statements t)

end LineScope.Collapse
