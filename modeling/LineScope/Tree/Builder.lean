import LineScope.Tree.Basic

/-! Building a tree in the order of the text. -/
namespace LineScope

inductive Step where
  /-- Starts an interior node below the current one. -/
  | enter (symbol : Symbol)
  /-- Adds a leaf to the current node. -/
  | token (leaf : Leaf)
  /-- Ends the current node; the root never ends. -/
  | leave
  deriving DecidableEq, Repr

/-- A tree with its unfinished nodes below the root, innermost first. -/
structure Builder where
  tree : Tree
  unfinished : List NodeId
  deriving DecidableEq, Repr

namespace Builder

def start (symbol : Symbol) : Builder := ⟨.empty symbol, []⟩

def current (b : Builder) : NodeId := b.unfinished.headD rootId

def attach (b : Builder) (payload : Payload) : Tree :=
  ((b.tree.alloc payload).mapChildren b.current (· ++ [b.tree.size])).setParent b.tree.size
    (some b.current)

def step (b : Builder) : Step → Builder
  | .enter symbol => ⟨b.attach (.interior symbol []), b.tree.size :: b.unfinished⟩
  | .token leaf => ⟨b.attach (.token leaf), b.unfinished⟩
  | .leave => ⟨b.tree, b.unfinished.tail⟩

end Builder

/-- The tree of a sequence of steps; nodes left unfinished stay as they are. -/
def Tree.build (symbol : Symbol) (steps : List Step) : Tree :=
  (steps.foldl Builder.step (Builder.start symbol)).tree

end LineScope
