import LineScope.Tree.Leaf

/-! Trees as a store of slots. Every slot knows its parent, and interior nodes list their children.
A detached node keeps its slot, so node numbers stay valid. -/
namespace LineScope

abbrev NodeId := Nat

inductive Payload where
  | token (leaf : Leaf)
  | interior (symbol : Symbol) (children : List NodeId)
  deriving DecidableEq, Repr

structure Slot where
  parent : Option NodeId
  payload : Payload
  deriving DecidableEq, Repr

structure Tree where
  slots : Array Slot
  deriving DecidableEq, Repr

def rootId : NodeId := 0

namespace Tree

def empty (symbol : Symbol) : Tree := ⟨#[⟨none, .interior symbol []⟩]⟩

/-- Number of slots, those of detached nodes included. -/
def size (t : Tree) : Nat := t.slots.size

def payload? (t : Tree) (n : NodeId) : Option Payload := t.slots[n]?.map Slot.payload

def parent? (t : Tree) (n : NodeId) : Option NodeId := t.slots[n]?.bind Slot.parent

def children (t : Tree) (n : NodeId) : List NodeId :=
  match t.payload? n with
  | some (.interior _ children) => children
  | _ => []

def leaf? (t : Tree) (n : NodeId) : Option Leaf :=
  match t.payload? n with
  | some (.token leaf) => some leaf
  | _ => none

def symbol? (t : Tree) (n : NodeId) : Option Symbol :=
  match t.payload? n with
  | some (.interior symbol _) => some symbol
  | _ => none

def kind? (t : Tree) (n : NodeId) : Option TokenKind := (t.leaf? n).map Leaf.kind

def isToken (t : Tree) (n : NodeId) (kind : TokenKind) : Bool := t.kind? n == some kind

def isSymbol (t : Tree) (n : NodeId) (symbol : Symbol) : Bool := t.symbol? n == some symbol

/-- Adds a detached node; its number is the old size. -/
def alloc (t : Tree) (payload : Payload) : Tree := ⟨t.slots.push ⟨none, payload⟩⟩

def setParent (t : Tree) (n : NodeId) (parent : Option NodeId) : Tree :=
  ⟨t.slots.modify n fun slot => { slot with parent }⟩

def mapChildren (t : Tree) (n : NodeId) (f : List NodeId → List NodeId) : Tree :=
  ⟨t.slots.modify n fun slot =>
    match slot.payload with
    | .interior symbol children => { slot with payload := .interior symbol (f children) }
    | .token _ => slot⟩

def mapLeaf (t : Tree) (n : NodeId) (f : Leaf → Leaf) : Tree :=
  ⟨t.slots.modify n fun slot =>
    match slot.payload with
    | .token leaf => { slot with payload := .token (f leaf) }
    | .interior _ _ => slot⟩

def siblings? (t : Tree) (n : NodeId) : Option (List NodeId × List NodeId) := do
  let parent ← t.parent? n
  let index ← (t.children parent).idxOf? n
  return ((t.children parent).take index, (t.children parent).drop (index + 1))

def prevSibling? (t : Tree) (n : NodeId) : Option NodeId :=
  (t.siblings? n).bind fun (before, _) => before.getLast?

def nextSibling? (t : Tree) (n : NodeId) : Option NodeId :=
  (t.siblings? n).bind fun (_, after) => after.head?

end Tree

end LineScope
