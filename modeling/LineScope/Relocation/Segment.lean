import LineScope.Diff.Matching
import LineScope.Range.Basic
import LineScope.Text.Lines

/-! Two versions of a text side by side, in segments that alternate between equal and changed
lines. -/
namespace LineScope

/-- Lines `old` of the old version became lines `new` of the new one. Either side of a changed
segment may be empty, which is written with a start one past its stop. -/
structure Segment where
  old : LineRange
  new : LineRange
  changed : Bool
  deriving DecidableEq, Repr

namespace Segment

/-- The lines between index `oldStart` and `newStart` and a run of equal lines, if there are any. -/
def gap (oldStart newStart : Nat) (run : Diff.Run) : List Segment :=
  let segment : Segment := ⟨⟨oldStart + 1, run.old⟩, ⟨newStart + 1, run.new⟩, true⟩
  if segment.old.isValid || segment.new.isValid then [segment] else []

def equal (run : Diff.Run) : Segment :=
  ⟨⟨run.old + 1, run.old + run.length⟩, ⟨run.new + 1, run.new + run.length⟩, false⟩

/-- Segments from index `oldStart` and `newStart` on; `ends` is where the versions end. -/
def between (ends : Diff.Run) (oldStart newStart : Nat) : List Diff.Run → List Segment
  | [] => gap oldStart newStart ends
  | run :: rest =>
    gap oldStart newStart run ++ equal run :: between ends (run.old + run.length)
      (run.new + run.length) rest

def joinRuns : List Diff.Run → List Diff.Run
  | [] => []
  | run :: rest =>
    match joinRuns rest with
    | next :: more =>
      if run.old + run.length = next.old ∧ run.new + run.length = next.new then
        { run with length := run.length + next.length } :: more
      else run :: next :: more
    | [] => [run]

/-- The segments of two versions with `oldLines` and `newLines` lines, by their equal runs; empty
runs do not count. -/
def ofRuns (oldLines newLines : Nat) (runs : List Diff.Run) : List Segment :=
  between ⟨oldLines, newLines, 0⟩ 0 0 (joinRuns (runs.filter fun run => 0 < run.length))

end Segment

/-- The segments of two texts. A missing line break at the end makes a line differ. -/
def segments (old new : String) (algorithm : Diff.Algorithm) : List Segment :=
  let v : Diff.Versions := ⟨(Text.lines old).toArray, (Text.lines new).toArray⟩
  Segment.ofRuns v.old.size v.new.size (Diff.equalRuns v algorithm)

end LineScope
