import LineScope.Diff.Myers

/-! Scripts anchored on lines that occur once in either version. -/
namespace LineScope.Diff

def uniqueLines (lines : Array String) : Array Nat :=
  (Array.range lines.size).filter fun i =>
    match lines[i]? with
    | some line => lines.count line == 1
    | none => false

def select (lines : Array String) (indices : Array Nat) : Array String :=
  indices.filterMap (lines[·]?)

/-- Pairs of equal unique lines, ascending on both sides. -/
def anchors (v : Versions) : List (Nat × Nat) :=
  let old := uniqueLines v.old
  let new := uniqueLines v.new
  let unique : Versions := ⟨select v.old old, select v.new new⟩
  (myers unique unique.whole).flatMap fun op =>
    if op.tag = .keep then
      (List.range op.length).filterMap fun i => do
        return (← old[op.old + i]?, ← new[op.new + i]?)
    else []

/-- The script from `i` and `j` on, stretch by stretch up to each anchor. An anchor itself is kept
by the stretch that starts with it. -/
def patienceFrom (v : Versions) (i j : Nat) : List (Nat × Nat) → List Op
  | [] => myers v ⟨i, v.old.size, j, v.new.size⟩
  | (oldAnchor, newAnchor) :: rest =>
    let run := v.commonStart ⟨i, oldAnchor, j, newAnchor⟩
    Op.keeping i j run ++ myers v ⟨i + run, oldAnchor, j + run, newAnchor⟩ ++
      patienceFrom v oldAnchor newAnchor rest

def patience (v : Versions) : List Op := patienceFrom v 0 0 (anchors v)

end LineScope.Diff
