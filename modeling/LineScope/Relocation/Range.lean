import LineScope.Relocation.Segment

/-! Carrying line ranges from one version of a text to the next. A range that ends in changed lines
widens to all of them, one that ends in equal lines moves with those. -/
namespace LineScope.Relocation

/-- Where a range starts in the new version, given the segment of its first line. -/
def newStart (segment : Segment) (line : Nat) : Nat :=
  if segment.changed then segment.new.start else line - segment.old.start + segment.new.start

/-- Where a range stops in the new version, given the segment of its last line. -/
def newStop (segment : Segment) (line : Nat) : Nat :=
  if segment.changed then segment.new.stop else line - segment.old.start + segment.new.start

/-- Carries ascending ranges across ascending segments. Segments before the one a range starts in
are not looked at again. Ranges that reach outside the old version, or of which nothing is left, are
dropped. -/
def carry (segments : List Segment) : List LineRange → List LineRange
  | [] => []
  | range :: rest =>
    match segments.dropWhile (fun segment => !segment.old.contains range.start) with
    | [] => carry segments rest
    | first :: following =>
      match (first :: following).find? (·.old.contains range.stop) with
      | none => carry (first :: following) rest
      | some last =>
        let moved : LineRange := ⟨newStart first range.start, newStop last range.stop⟩
        if moved.isValid then moved :: carry (first :: following) rest
        else carry (first :: following) rest

end LineScope.Relocation

namespace LineScope

/-- The lines of the new text that correspond to ranges of the old one; ranges that run backwards
are dropped, and the others are taken in order. -/
def relocate (ranges : List LineRange) (old new : String) (algorithm : Diff.Algorithm) :
    List LineRange :=
  Relocation.carry (segments old new algorithm) (LineRange.sort (ranges.filter LineRange.isValid))

structure Revision where
  ranges : List LineRange
  old : String
  new : String

def relocateAll (revisions : List Revision) (algorithm : Diff.Algorithm) : List (List LineRange) :=
  revisions.map fun r => relocate r.ranges r.old r.new algorithm

end LineScope
