import LineScope.Tree.Builder

/-! Trees by nesting, without numbers. -/
namespace LineScope

inductive Shape where
  | leaf (token : Leaf)
  | node (symbol : Symbol) (parts : List Shape)
  deriving Repr

namespace Shape

mutual

def steps : Shape → List Step
  | .leaf token => [.token token]
  | .node symbol parts => .enter symbol :: stepsOfAll parts ++ [.leave]

def stepsOfAll : List Shape → List Step
  | [] => []
  | shape :: rest => shape.steps ++ stepsOfAll rest

end

mutual

def tokens : Shape → List Leaf
  | .leaf token => [token]
  | .node _ parts => tokensOfAll parts

def tokensOfAll : List Shape → List Leaf
  | [] => []
  | shape :: rest => shape.tokens ++ tokensOfAll rest

end

end Shape

/-- The tree with the given shapes below its root, numbered in the order of the text. -/
def Tree.ofShapes (symbol : Symbol) (shapes : List Shape) : Tree :=
  .build symbol (Shape.stepsOfAll shapes)

end LineScope
