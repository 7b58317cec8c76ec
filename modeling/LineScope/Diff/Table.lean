import LineScope.Diff.Script

/-! Scripts read off a table of common subsequences. -/
namespace LineScope.Diff

/-- A row of the table from the row below it, both from left to right. -/
def tableRow (line : String) : List String → List Nat → List Nat
  | x :: xs, down :: below =>
    let right := tableRow line xs below
    (if line == x then below.headD 0 + 1 else max down (right.headD 0)) :: right
  | _, _ => [0]

/-- Entry `i, j` is the length of a longest common subsequence of the new lines from `i` on and the
old lines from `j` on. -/
def tableRows (old new : List String) : List (List Nat) :=
  new.foldr (fun line rows => tableRow line old (rows.headD []) :: rows)
    [List.replicate (old.length + 1) 0]

structure Table where
  entries : Array (Array Nat)

def Table.ofLines (old new : List String) : Table :=
  ⟨((tableRows old new).map List.toArray).toArray⟩

def Table.entry (t : Table) (i j : Nat) : Nat := (t.entries.getD i #[]).getD j 0

/-- From the upper left corner of a box, with `i` new and `j` old lines done: equal lines are kept,
and otherwise the table says which side goes on. -/
def walkTable (v : Versions) (box : Box) (t : Table) (i j : Nat) : List Op :=
  if h : i < box.newLength ∧ j < box.oldLength then
    let old := box.oldStart + j
    let new := box.newStart + i
    if v.same old new then ⟨.keep, old, new, 1⟩ :: walkTable v box t (i + 1) (j + 1)
    else if t.entry (i + 1) j ≤ t.entry i (j + 1) then
      ⟨.delete, old, new, 1⟩ :: walkTable v box t i (j + 1)
    else ⟨.insert, old, new, 1⟩ :: walkTable v box t (i + 1) j
  else Op.replacing { box with oldStart := box.oldStart + j, newStart := box.newStart + i }
termination_by (box.newLength - i) + (box.oldLength - j)

/-- The table is that of the first lines of both versions, as many as lie between the common start
and the common end, whichever lines those are. -/
def byTable (v : Versions) : List Op :=
  if v.new.size = 0 then [⟨.delete, 0, 0, v.old.size⟩]
  else if v.old.size = 0 then [⟨.insert, 0, 0, v.new.size⟩]
  else
    let first := v.commonStart v.whole
    let last := v.commonEnd (v.whole.dropFirst first)
    let core := (v.whole.dropFirst first).dropLast last
    let table := Table.ofLines (v.old.toList.take core.oldLength) (v.new.toList.take core.newLength)
    Op.keeping 0 0 first ++ walkTable v core table 0 0 ++ Op.keeping core.oldStop core.newStop last

end LineScope.Diff
