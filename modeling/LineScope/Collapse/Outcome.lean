import LineScope.Range.LineSet
import LineScope.Tree.Edit

/-! What a collapse reports, and replacing a run of nodes by one verbatim leaf. -/
namespace LineScope

inductive CollapseError where
  /-- A simple statement whose last leaf is no newline. -/
  | missingNewline (node : NodeId) (found : Option TokenKind)
  | emptySpan (node : NodeId)
  | singleLeaf (node : NodeId)
  /-- A newline in a block with no header in front of it. -/
  | emptyGroup (newline : NodeId) (context : Symbol)
  | edit (cause : EditError)
  deriving DecidableEq, Repr

def CollapseError.message : CollapseError → String
  | .missingNewline node found =>
    let last := match found with
      | none => "None"
      | some kind => "Some(" ++ kind.label ++ ")"
    "simple statement " ++ nodeLabel node ++ " ends with " ++ last ++ " instead of a NEWLINE"
  | .emptySpan node => "node " ++ nodeLabel node ++ " has no leaves to collapse"
  | .singleLeaf node => "node " ++ nodeLabel node ++ " is a single leaf, expected a subtree"
  | .emptyGroup newline context =>
    "nothing precedes NEWLINE " ++ nodeLabel newline ++ " in its " ++ context.label
  | .edit cause => cause.message

/-- A tree after some work on it, and how the work ended. The tree is there in either case. -/
structure Outcome (α : Type) where
  tree : Tree
  result : Except CollapseError α

namespace Collapse

/-- Drops one line terminator from the end of a text given backwards. -/
def dropTerminator : List Char → List Char
  | '\n' :: '\r' :: rest => rest
  | '\n' :: rest => rest
  | cs => cs

/-- Drops one trailing line terminator; rendering puts it back. -/
def stripTerminator (s : String) : String :=
  String.ofList (dropTerminator s.toList.reverse).reverse

/-- Detaches nodes one after the other; the index is that of the first one that had a parent. -/
def detachAll (t : Tree) : List NodeId → Option Nat × Tree
  | [] => (none, t)
  | n :: rest =>
    match t.remove? n with
    | none => detachAll t rest
    | some (index, t) => (some index, (detachAll t rest).2)

/-- Puts one verbatim leaf in the place of the first of a run of nodes, below `parent`. The trivia
of the run's first leaf moves to the verbatim leaf and stays outside its value. -/
def replaceRun (t : Tree) (parent : NodeId) (head : NodeId) (rest : List NodeId) (first : NodeId) :
    Outcome Bool :=
  match t.leaf? first with
  | none => ⟨t, .error (.emptySpan head)⟩
  | some leaf =>
    let bare := t.mapLeaf first fun leaf => { leaf with trivia := "" }
    let value := stripTerminator (bare.text (head :: rest))
    match detachAll bare (head :: rest) with
    | (none, cut) => ⟨cut, .error (.emptySpan head)⟩
    | (some index, cut) =>
      let grown := cut.alloc (.token ⟨.verbatim, leaf.trivia, value, leaf.line⟩)
      match grown.insertChild parent index cut.size with
      | .error cause => ⟨grown, .error (.edit cause)⟩
      | .ok done => ⟨done, .ok true⟩

/-- Collapses a subtree of at least two leaves; a detached one is left alone. -/
def collapseNode (t : Tree) (n : NodeId) : Outcome Bool :=
  match t.parent? n with
  | none => ⟨t, .ok false⟩
  | some parent =>
    match t.firstLeaf? n, t.lastLeaf? n with
    | some first, some last =>
      if first = last then ⟨t, .error (.singleLeaf n)⟩ else replaceRun t parent n [] first
    | _, _ => ⟨t, .error (.emptySpan n)⟩

/-- Collapses a run of nodes; one whose first node is detached is left alone. -/
def collapseRun (t : Tree) : List NodeId → Outcome Bool
  | [] => ⟨t, .ok false⟩
  | head :: rest =>
    match t.parent? head with
    | none => ⟨t, .ok false⟩
    | some parent =>
      match t.firstLeaf? head with
      | none => ⟨t, .error (.emptySpan head)⟩
      | some first => replaceRun t parent head rest first

/-- Whether a run of nodes stays clear of the kept lines. A run without lines does. -/
def misses (t : Tree) (keep : LineSet) (nodes : List NodeId) : Bool :=
  match t.lineSpan? nodes with
  | none => true
  | some span => !keep.intersects span

/-- Takes the steps of a pass in turn up to the first error, counting those that collapsed
something. -/
def sweep (step : Tree → NodeId → Outcome Bool) (t : Tree) (count : Nat) :
    List NodeId → Outcome Nat
  | [] => ⟨t, .ok count⟩
  | n :: rest =>
    match step t n with
    | ⟨t, .error e⟩ => ⟨t, .error e⟩
    | ⟨t, .ok done⟩ => sweep step t (if done then count + 1 else count) rest

def furthestLast (t : Tree) (n : NodeId) : List NodeId → NodeId
  | [] => n
  | parent :: above =>
    if (t.children parent).getLast? = some n then furthestLast t parent above else n

/-- The highest node that a leaf is the last leaf of. -/
def furthestEndingWith (t : Tree) (leaf : NodeId) : NodeId :=
  furthestLast t leaf (t.lineage leaf).tail

end Collapse

end LineScope
