/-! Paths as they are written. Going up drops the last component, whatever it is. -/
namespace LineScope

structure Path where
  isAbsolute : Bool
  components : List String
  deriving DecidableEq, Repr

namespace Path

/-- Empty components and single dots say nothing. -/
def parse (text : String) : Path :=
  ⟨text.toList.head? == some '/',
    ((text.toList.splitOn '/').map String.ofList).filter fun part => part != "" && part != "."⟩

def render (p : Path) : String :=
  (if p.isAbsolute then "/" else "") ++ "/".intercalate p.components

def child (p : Path) (name : String) : Path := { p with components := p.components ++ [name] }

def parent (p : Path) : Path := { p with components := p.components.dropLast }

def upward (p : Path) : List Path :=
  (List.range (p.components.length + 1)).map fun n =>
    { p with components := p.components.take (p.components.length - n) }

end Path

end LineScope
