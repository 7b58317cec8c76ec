import LineScope.Range.Basic
import LineScope.Tree.Basic

/-! Walks over a tree. A walk that visits no node twice takes at most as many steps as there are
slots, which is the bound given to each. -/
namespace LineScope.Tree

def climb (t : Tree) : Nat → NodeId → List NodeId
  | 0, _ => []
  | steps + 1, n =>
    match t.parent? n with
    | none => [n]
    | some parent => n :: climb t steps parent

def lineage (t : Tree) (n : NodeId) : List NodeId := t.climb t.size n

def isAttached (t : Tree) (n : NodeId) : Bool := (t.lineage n).getLast? == some rootId

/-- Visits the pending nodes, each followed by what lies below it. -/
def visit (t : Tree) : Nat → List NodeId → List NodeId
  | 0, _ => []
  | _, [] => []
  | steps + 1, n :: pending => n :: visit t steps (t.children n ++ pending)

def descendants (t : Tree) (n : NodeId) : List NodeId := t.visit t.size [n]

def leaves (t : Tree) (n : NodeId) : List NodeId :=
  (t.descendants n).filter fun m => (t.leaf? m).isSome

/-- Goes down to a leaf by way of one chosen child at every level. -/
def descend (t : Tree) (choose : List NodeId → Option NodeId) : Nat → NodeId → Option NodeId
  | 0, _ => none
  | steps + 1, n =>
    match t.payload? n with
    | some (.interior _ children) => (choose children).bind (descend t choose steps)
    | some (.token _) => some n
    | none => none

/-- The leaf reached through first children; a childless node on the way has none. -/
def firstLeaf? (t : Tree) (n : NodeId) : Option NodeId := t.descend List.head? t.size n

/-- The leaf reached through last children; a childless node on the way has none. -/
def lastLeaf? (t : Tree) (n : NodeId) : Option NodeId := t.descend List.getLast? t.size n

def visitDepths (t : Tree) : Nat → List (Nat × NodeId) → List (Nat × NodeId)
  | 0, _ => []
  | _, [] => []
  | steps + 1, (depth, n) :: pending =>
    (depth, n) :: visitDepths t steps ((t.children n).map (depth + 1, ·) ++ pending)

def outline (t : Tree) (n : NodeId) : List (Nat × NodeId) := t.visitDepths t.size [(0, n)]

def tokens (t : Tree) (nodes : List NodeId) : List Leaf :=
  (nodes.flatMap t.leaves).filterMap t.leaf?

def text (t : Tree) (nodes : List NodeId) : String := Leaf.render (t.tokens nodes)

def source (t : Tree) : String := t.text [rootId]

/-- The lines from the first leaf of the first node to the last leaf of the last one. -/
def lineSpan? (t : Tree) (nodes : List NodeId) : Option LineRange := do
  let first ← t.leaf? (← t.firstLeaf? (← nodes.head?))
  let last ← t.leaf? (← t.lastLeaf? (← nodes.getLast?))
  return ⟨first.line, last.endLine⟩

end LineScope.Tree
