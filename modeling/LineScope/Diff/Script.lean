/-! Two versions of a text by lines, and scripts that turn the old one into the new one. -/
namespace LineScope.Diff

structure Versions where
  old : Array String
  new : Array String

/-- Old lines from `oldStart` up to `oldStop` beside new lines from `newStart` up to `newStop`. -/
structure Box where
  oldStart : Nat
  oldStop : Nat
  newStart : Nat
  newStop : Nat
  deriving DecidableEq, Repr

namespace Box

def oldLength (box : Box) : Nat := box.oldStop - box.oldStart

def newLength (box : Box) : Nat := box.newStop - box.newStart

def size (box : Box) : Nat := box.oldLength + box.newLength

def dropFirst (box : Box) (n : Nat) : Box :=
  { box with oldStart := box.oldStart + n, newStart := box.newStart + n }

def dropLast (box : Box) (n : Nat) : Box :=
  { box with oldStop := box.oldStop - n, newStop := box.newStop - n }

end Box

namespace Versions

def whole (v : Versions) : Box := ⟨0, v.old.size, 0, v.new.size⟩

def same (v : Versions) (i j : Nat) : Bool :=
  match v.old[i]?, v.new[j]? with
  | some x, some y => x == y
  | _, _ => false

/-- Number of equal lines from `i` and `j` on, at most `n`. -/
def runAfter (v : Versions) (i j : Nat) : Nat → Nat
  | 0 => 0
  | n + 1 => if v.same i j then v.runAfter (i + 1) (j + 1) n + 1 else 0

def runBefore (v : Versions) (i j : Nat) : Nat → Nat
  | 0 => 0
  | n + 1 => if v.same (i - 1) (j - 1) then v.runBefore (i - 1) (j - 1) n + 1 else 0

def commonStart (v : Versions) (box : Box) : Nat :=
  v.runAfter box.oldStart box.newStart (min box.oldLength box.newLength)

def commonEnd (v : Versions) (box : Box) : Nat :=
  v.runBefore box.oldStop box.newStop (min box.oldLength box.newLength)

theorem runAfter_le (v : Versions) (i j n : Nat) : v.runAfter i j n ≤ n := by
  induction n generalizing i j with
  | zero => exact Nat.le_refl _
  | succ n ih =>
    rw [runAfter]
    split
    · exact Nat.succ_le_succ (ih _ _)
    · exact Nat.zero_le _

theorem runBefore_le (v : Versions) (i j n : Nat) : v.runBefore i j n ≤ n := by
  induction n generalizing i j with
  | zero => exact Nat.le_refl _
  | succ n ih =>
    rw [runBefore]
    split
    · exact Nat.succ_le_succ (ih _ _)
    · exact Nat.zero_le _

end Versions

inductive Tag where
  | keep
  | delete
  | insert
  deriving DecidableEq, Repr

/-- Keeps, deletes or inserts `length` lines; `old` and `new` say where. -/
structure Op where
  tag : Tag
  old : Nat
  new : Nat
  length : Nat
  deriving DecidableEq, Repr

namespace Op

def oldStop (op : Op) : Nat := if op.tag = .insert then op.old else op.old + op.length

def newStop (op : Op) : Nat := if op.tag = .delete then op.new else op.new + op.length

def keeping (old new length : Nat) : List Op :=
  if length = 0 then [] else [⟨.keep, old, new, length⟩]

def replacing (box : Box) : List Op :=
  let deleted : Op := ⟨.delete, box.oldStart, box.newStart, box.oldLength⟩
  let inserted : Op := ⟨.insert, box.oldStart, box.newStart, box.newLength⟩
  (if box.oldStart < box.oldStop then [deleted] else []) ++
    (if box.newStart < box.newStop then [inserted] else [])

end Op

end LineScope.Diff
