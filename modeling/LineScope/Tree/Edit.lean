import LineScope.Tree.Walk

/-! Attaching and detaching nodes. -/
namespace LineScope

inductive EditError where
  | notInterior (node : NodeId)
  | alreadyAttached (node : NodeId)
  | attachRoot (node : NodeId)
  | cycle (parent child : NodeId)
  | indexOutOfBounds (parent : NodeId) (index length : Nat)
  deriving DecidableEq, Repr

def nodeLabel (n : NodeId) : String := "#" ++ n.repr

def EditError.message : EditError → String
  | .notInterior node => "node " ++ nodeLabel node ++ " is a leaf and cannot take children"
  | .alreadyAttached node => "node " ++ nodeLabel node ++ " is already attached to a parent"
  | .attachRoot node => "the root node " ++ nodeLabel node ++ " cannot be attached"
  | .cycle parent child =>
    "attaching " ++ nodeLabel child ++ " under " ++ nodeLabel parent ++ " would create a cycle"
  | .indexOutOfBounds parent index length =>
    "index " ++ index.repr ++ " out of bounds for " ++ nodeLabel parent ++ " with " ++
      length.repr ++ " children"

namespace Tree

def insertChild (t : Tree) (parent index child : NodeId) : Except EditError Tree :=
  if child = rootId then .error (.attachRoot child)
  else if (t.parent? child).isSome then .error (.alreadyAttached child)
  else if child ∈ t.lineage parent then .error (.cycle parent child)
  else match t.payload? parent with
    | some (.interior _ children) =>
      if index ≤ children.length then
        .ok ((t.mapChildren parent (·.insertIdx index child)).setParent child (some parent))
      else .error (.indexOutOfBounds parent index children.length)
    | _ => .error (.notInterior parent)

def appendChild (t : Tree) (parent child : NodeId) : Except EditError Tree :=
  t.insertChild parent (t.children parent).length child

/-- Detaches a node and tells where it was; `none` when it has no parent. -/
def remove? (t : Tree) (n : NodeId) : Option (Nat × Tree) := do
  let parent ← t.parent? n
  let index ← (t.children parent).idxOf? n
  return (index, (t.mapChildren parent (·.eraseIdx index)).setParent n none)

end Tree

end LineScope
