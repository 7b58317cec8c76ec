import LineScope.Proofs.Relocation.Image
import Mathlib.Data.List.Flatten

/-!
# The order of carried ranges

Segments that lie before a range are given up for good. Since ranges are taken by their starts and
segments stand in order, no later range misses them, so every range is carried as if it were alone.
The carried ranges keep the order of their starts. Their stops only follow where no range ends before
one that it starts behind: two starts in one changed segment become the same line.
-/
namespace LineScope

open Diff

section Blank

variable {oldLines newLines : Nat} {runs : List Run}

/-- Of two versions made of blank lines, all lines are equal. -/
theorem Diff.InOrder.matches (h : InOrder oldLines newLines runs) :
    Matches ⟨Array.replicate oldLines "", Array.replicate newLines ""⟩ runs where
  within := by simpa using h.within
  ascending := h.ascending
  equal := by
    intro run hrun k hk
    obtain ⟨hold, hnew⟩ := h.within run hrun
    simp only [Array.getElem?_replicate]
    rw [if_pos (by omega), if_pos (by omega)]

/-- Whatever the lines of the runs hold, the segments come out as those of blank lines. -/
theorem Segment.tiling_blank (h : InOrder oldLines newLines runs) :
    Tiling ⟨Array.replicate oldLines "", Array.replicate newLines ""⟩
      (Segment.ofRuns oldLines newLines runs) := by
  simpa using Segment.tiling_ofRuns h.matches

end Blank

namespace LineRange

variable {r s : LineRange} {ranges other : List LineRange}

theorem le_antisymm (hrs : r.le s = true) (hsr : s.le r = true) : r = s := by
  cases r
  cases s
  simp only [le, Bool.or_eq_true, Bool.and_eq_true, decide_eq_true_eq, beq_iff_eq, mk.injEq] at *
  omega

theorem start_le_of_le (h : r.le s = true) : r.start ≤ s.start := by
  simp only [le, Bool.or_eq_true, Bool.and_eq_true, decide_eq_true_eq, beq_iff_eq] at h
  omega

theorem le_of_start_le_of_stop_le (hstart : r.start ≤ s.start) (hstop : r.stop ≤ s.stop) :
    r.le s = true := by
  simp only [le, Bool.or_eq_true, Bool.and_eq_true, decide_eq_true_eq, beq_iff_eq]
  omega

theorem pairwise_sort (ranges : List LineRange) : (sort ranges).Pairwise fun r s => r.le s = true :=
  @List.pairwise_mergeSort _ le (fun _ _ _ => le_trans) le_total ranges

theorem sort_perm (ranges : List LineRange) : (sort ranges).Perm ranges :=
  List.mergeSort_perm ranges le

theorem sort_eq_of_perm (h : ranges.Perm other) : sort ranges = sort other := by
  have hperm : (sort ranges).Perm (sort other) :=
    (sort_perm ranges).trans (h.trans (sort_perm other).symm)
  exact hperm.eq_of_pairwise (fun _ _ _ _ => le_antisymm) (pairwise_sort ranges)
    (pairwise_sort other)

end LineRange

namespace Relocation

variable {v : Versions} {before after segments : List Segment} {r s x y : LineRange}
  {ranges : List LineRange}

theorem dropWhile_before (h : ∀ p ∈ before, p.old.stop < r.start) :
    (before ++ after).dropWhile (fun p => !p.old.contains r.start) =
      after.dropWhile (fun p => !p.old.contains r.start) := by
  apply List.dropWhile_append_of_pos
  intro p hp
  have := h p hp
  simp only [LineRange.contains, Bool.not_eq_true', Bool.and_eq_false_iff, decide_eq_false_iff_not]
  omega

theorem carry_append_of_before (h : ∀ p ∈ before, ∀ r ∈ ranges, p.old.stop < r.start) :
    carry (before ++ after) ranges = carry after ranges := by
  induction ranges with
  | nil => rfl
  | cons r rest ih =>
    have hrest := ih fun p hp t ht => h p hp t (List.mem_cons_of_mem _ ht)
    rw [carry, carry, dropWhile_before fun p hp => h p hp r List.mem_cons_self, hrest]

/-- The first of several ranges in order is carried as if it were alone, and so are the others. -/
theorem carry_cons (hsegments : segments.Pairwise fun p q => p.old.stop < q.old.start)
    (hstart : ∀ t ∈ ranges, r.start ≤ t.start) :
    carry segments (r :: ranges) = carry segments [r] ++ carry segments ranges := by
  rw [carry, carry]
  split
  · rfl
  · next first following hdrop =>
    -- what was dropped lies before `first`, so before `r` and all that come after it
    have hkept : carry (first :: following) ranges = carry segments ranges := by
      conv_rhs => rw [← List.takeWhile_append_dropWhile
        (p := fun p : Segment => !p.old.contains r.start) (l := segments), hdrop]
      rw [carry_append_of_before]
      intro p hp t ht
      have hsplit := List.takeWhile_append_dropWhile
        (p := fun p : Segment => !p.old.contains r.start) (l := segments)
      rw [← hsplit, hdrop] at hsegments
      have hbefore := (List.pairwise_append.mp hsegments).2.2 p hp first List.mem_cons_self
      have hfirst : first.old.contains r.start = true := by
        have hhead := List.head_dropWhile_not (fun p : Segment => !p.old.contains r.start)
          (l := segments) (by rw [hdrop]; exact List.cons_ne_nil _ _)
        simpa [hdrop] using hhead
      rw [LineRange.contains_iff] at hfirst
      have := hstart t ht
      omega
    rw [hkept]
    split
    · rfl
    · simp only [carry]
      split <;> rfl

theorem carry_eq_flatMap (hsegments : segments.Pairwise fun p q => p.old.stop < q.old.start)
    (hranges : ranges.Pairwise fun r s => r.start ≤ s.start) :
    carry segments ranges = ranges.flatMap fun r => carry segments [r] := by
  induction ranges with
  | nil => rfl
  | cons r rest ih =>
    obtain ⟨hstart, hrest⟩ := List.pairwise_cons.mp hranges
    rw [carry_cons hsegments hstart, ih hrest, List.flatMap_cons]

theorem carry_sort_eq_flatMap (h : segments.Pairwise Segment.Before) (ranges : List LineRange) :
    carry segments (LineRange.sort ranges) =
      (LineRange.sort ranges).flatMap fun r => carry segments [r] :=
  carry_eq_flatMap (h.imp And.left) ((LineRange.pairwise_sort ranges).imp LineRange.start_le_of_le)

/-- A carried range starts and stops where the ends of the range went. -/
theorem exists_of_mem_carry_singleton (h : Tiling v segments) (hvalid : r.start ≤ r.stop)
    (hx : x ∈ carry segments [r]) :
    ∃ first ∈ segments, ∃ last ∈ segments, first.old.contains r.start = true ∧
      last.old.contains r.stop = true ∧
      x = ⟨(first.image r.start).start, (last.image r.stop).stop⟩ := by
  have hsome : carry segments [r] ≠ [] := List.ne_nil_of_mem hx
  have hstart : ∃ first ∈ segments, first.old.contains r.start = true := by
    by_contra hnone
    exact hsome (carry_singleton_eq_nil (.inl (by simpa using hnone)))
  have hstop : ∃ last ∈ segments, last.old.contains r.stop = true := by
    by_contra hnone
    exact hsome (carry_singleton_eq_nil (.inr (by simpa using hnone)))
  obtain ⟨first, hf, hstart⟩ := hstart
  obtain ⟨last, hl, hstop⟩ := hstop
  rw [carry_singleton h hf hl hstart hstop hvalid] at hx
  split at hx
  · exact ⟨first, hf, last, hl, hstart, hstop, List.mem_singleton.mp hx⟩
  · cases hx

/-- Where one range starts no later than another, so does what it became, and likewise for stops. -/
theorem carry_singleton_mono (h : Tiling v segments) (hr : r.start ≤ r.stop) (hs : s.start ≤ s.stop)
    (hx : x ∈ carry segments [r]) (hy : y ∈ carry segments [s]) :
    (r.start ≤ s.start → x.start ≤ y.start) ∧ (r.stop ≤ s.stop → x.stop ≤ y.stop) := by
  obtain ⟨p, hp, q, hq, hstart, hstop, rfl⟩ := exists_of_mem_carry_singleton h hr hx
  obtain ⟨p', hp', q', hq', hstart', hstop', rfl⟩ := exists_of_mem_carry_singleton h hs hy
  constructor
  · intro hle
    exact (h.image_mono hp hp' hstart hstart' hle).1
  · intro hle
    exact (h.image_mono hq hq' hstop hstop' hle).2

end Relocation

theorem relocate_singleton (range : LineRange) (hvalid : range.isValid = true) (old new : String)
    (algorithm : Algorithm) :
    relocate [range] old new algorithm = Relocation.carry (segments old new algorithm) [range] := by
  rw [relocate, List.filter_cons_of_pos hvalid, List.filter_nil, LineRange.sort,
    List.mergeSort_singleton]

theorem relocate_eq_flatMap_carry (ranges : List LineRange) (old new : String)
    (algorithm : Algorithm) :
    relocate ranges old new algorithm =
      (LineRange.sort (ranges.filter LineRange.isValid)).flatMap fun range =>
        Relocation.carry (segments old new algorithm) [range] :=
  Relocation.carry_sort_eq_flatMap (segments_tile old new algorithm).pairwise_before _

theorem isValid_of_mem_sort {ranges : List LineRange} {range : LineRange}
    (h : range ∈ LineRange.sort (ranges.filter LineRange.isValid)) :
    range ∈ ranges ∧ range.isValid = true :=
  List.mem_filter.mp ((LineRange.sort_perm _).mem_iff.mp h)

theorem relocate_eq_carry {ranges : List LineRange} (sorted : List LineRange)
    (hperm : (ranges.filter LineRange.isValid).Perm sorted)
    (hsorted : sorted.Pairwise fun r s => r.le s = true) (old new : String)
    (algorithm : Algorithm) :
    relocate ranges old new algorithm =
      Relocation.carry (segments old new algorithm) sorted := by
  rw [relocate, LineRange.sort_eq_of_perm hperm, LineRange.sort,
    List.mergeSort_of_pairwise hsorted]

/-- Every range is carried as if it were alone, in the order of the valid ranges, so the order in
which they are given does not matter. The first part asks nothing of the matching but that its runs
stand in order within the versions. -/
theorem relocate_eq_flatMap (ranges : List LineRange) (old new : String) (algorithm : Algorithm) :
    (∀ runs, InOrder (Text.lines old).length (Text.lines new).length runs →
      Relocation.carry (Segment.ofRuns (Text.lines old).length (Text.lines new).length runs)
          (LineRange.sort (ranges.filter LineRange.isValid)) =
        (LineRange.sort (ranges.filter LineRange.isValid)).flatMap fun range =>
          Relocation.carry
            (Segment.ofRuns (Text.lines old).length (Text.lines new).length runs) [range]) ∧
      relocate ranges old new algorithm =
        (LineRange.sort (ranges.filter LineRange.isValid)).flatMap (fun range =>
          relocate [range] old new algorithm) ∧
      ∀ other, ranges.Perm other →
        relocate other old new algorithm = relocate ranges old new algorithm := by
  refine ⟨fun runs hruns => ?_, ?_, fun other hperm => ?_⟩
  · exact Relocation.carry_sort_eq_flatMap (Segment.tiling_blank hruns).pairwise_before _
  · rw [relocate_eq_flatMap_carry]
    apply List.flatMap_congr
    intro range hrange
    rw [relocate_singleton range (isValid_of_mem_sort hrange).2]
  · rw [relocate, relocate, LineRange.sort_eq_of_perm (hperm.filter LineRange.isValid)]

/-- A range whose first line is missing does not block the ones behind it, and a range may look back
to where the one before it starts. -/
theorem relocate_eq_flatMap_overlapping :
    List.Perm [⟨2, 4⟩, ⟨0, 1⟩, ⟨1, 9⟩, ⟨1, 2⟩] [⟨1, 2⟩, ⟨2, 4⟩, (⟨1, 9⟩ : LineRange), ⟨0, 1⟩] ∧
      relocate [⟨1, 2⟩, ⟨2, 4⟩, ⟨1, 9⟩, ⟨0, 1⟩] "a\nb\nc\nd\n" "a\nx\ny\nd\n" .myers =
        relocate [⟨2, 4⟩, ⟨0, 1⟩, ⟨1, 9⟩, ⟨1, 2⟩] "a\nb\nc\nd\n" "a\nx\ny\nd\n" .myers ∧
      relocate [⟨2, 4⟩, ⟨0, 1⟩, ⟨1, 9⟩, ⟨1, 2⟩] "a\nb\nc\nd\n" "a\nx\ny\nd\n" .myers =
        [⟨1, 3⟩, ⟨2, 4⟩] := by
  have hperm : List.Perm [⟨2, 4⟩, ⟨0, 1⟩, ⟨1, 9⟩, ⟨1, 2⟩]
      [⟨1, 2⟩, ⟨2, 4⟩, (⟨1, 9⟩ : LineRange), ⟨0, 1⟩] := by decide
  refine ⟨hperm, (relocate_eq_flatMap _ _ _ _).2.2 _ hperm, ?_⟩
  rw [relocate_eq_carry [⟨0, 1⟩, ⟨1, 2⟩, ⟨1, 9⟩, ⟨2, 4⟩] (by decide) (by decide)]
  decide +kernel

section Pairwise

variable {v : Versions} {segments : List Segment} {ranges : List LineRange}

/-- A relation between carried ranges, shown for any two ranges in order. -/
theorem Relocation.carry_pairwise (htiling : Tiling v segments) {R : LineRange → LineRange → Prop}
    (h : ∀ r ∈ ranges, ∀ s ∈ ranges, r.isValid = true → s.isValid = true → r.le s = true →
      ∀ x y : LineRange, (r.start ≤ s.start → x.start ≤ y.start) →
        (r.stop ≤ s.stop → x.stop ≤ y.stop) → R x y) :
    (carry segments (LineRange.sort (ranges.filter LineRange.isValid))).Pairwise R := by
  have hcarried : ∀ r ∈ LineRange.sort (ranges.filter LineRange.isValid),
      ∀ s ∈ LineRange.sort (ranges.filter LineRange.isValid), r.le s = true →
      ∀ x ∈ carry segments [r], ∀ y ∈ carry segments [s], R x y := by
    intro r hr s hs hle x hx y hy
    obtain ⟨hr, hvr⟩ := isValid_of_mem_sort hr
    obtain ⟨hs, hvs⟩ := isValid_of_mem_sort hs
    have hmono := carry_singleton_mono htiling (LineRange.isValid_iff.mp hvr)
      (LineRange.isValid_iff.mp hvs) hx hy
    exact h r hr s hs hvr hvs hle x y hmono.1 hmono.2
  rw [carry_sort_eq_flatMap htiling.pairwise_before]
  apply List.pairwise_flatMap.mpr
  constructor
  · intro r hr
    apply List.pairwise_of_forall_mem_list
    exact hcarried r hr r hr (LineRange.le_of_start_le_of_stop_le (Nat.le_refl _) (Nat.le_refl _))
  · apply (LineRange.pairwise_sort _).imp_of_mem
    intro r s hr hs hle
    exact hcarried r hr s hs hle

theorem Relocation.carry_pairwise_start (htiling : Tiling v segments) (ranges : List LineRange) :
    (carry segments (LineRange.sort (ranges.filter LineRange.isValid))).Pairwise
      fun r s => r.start ≤ s.start := by
  apply carry_pairwise htiling
  intro r _ s _ _ _ hle x y hstart _
  exact hstart (LineRange.start_le_of_le hle)

theorem Relocation.carry_pairwise_le (htiling : Tiling v segments)
    (hnested : ∀ r ∈ ranges, ∀ s ∈ ranges, r.isValid = true → s.isValid = true →
      r.start < s.start → r.stop ≤ s.stop) :
    (carry segments (LineRange.sort (ranges.filter LineRange.isValid))).Pairwise
      fun r s => r.le s = true := by
  apply carry_pairwise htiling
  intro r hr s hs hvr hvs hle x y hstart hstop
  have hlater := hnested r hr s hs hvr hvs
  apply LineRange.le_of_start_le_of_stop_le (hstart (LineRange.start_le_of_le hle))
  apply hstop
  simp only [LineRange.le, Bool.or_eq_true, Bool.and_eq_true, decide_eq_true_eq, beq_iff_eq] at hle
  omega

end Pairwise

/-- The carried ranges are ordered by their starts, and also by their stops if no valid range stops
before another one that starts earlier. This asks nothing of the matching but that its runs stand in
order within the versions. -/
theorem relocate_pairwise_le (ranges : List LineRange) (old new : String) (algorithm : Algorithm) :
    (∀ runs, InOrder (Text.lines old).length (Text.lines new).length runs →
      (Relocation.carry (Segment.ofRuns (Text.lines old).length (Text.lines new).length runs)
          (LineRange.sort (ranges.filter LineRange.isValid))).Pairwise
        (fun r s => r.start ≤ s.start) ∧
      ((∀ r ∈ ranges, ∀ s ∈ ranges, r.isValid = true → s.isValid = true →
          r.start < s.start → r.stop ≤ s.stop) →
        (Relocation.carry (Segment.ofRuns (Text.lines old).length (Text.lines new).length runs)
            (LineRange.sort (ranges.filter LineRange.isValid))).Pairwise
          fun r s => r.le s = true)) ∧
      (relocate ranges old new algorithm).Pairwise (fun r s => r.start ≤ s.start) ∧
      ((∀ r ∈ ranges, ∀ s ∈ ranges, r.isValid = true → s.isValid = true →
          r.start < s.start → r.stop ≤ s.stop) →
        (relocate ranges old new algorithm).Pairwise fun r s => r.le s = true) := by
  refine ⟨fun runs hruns => ?_, ?_⟩
  · have htiling := Segment.tiling_blank hruns
    exact ⟨Relocation.carry_pairwise_start htiling ranges, Relocation.carry_pairwise_le htiling⟩
  · have htiling := segments_tile old new algorithm
    exact ⟨Relocation.carry_pairwise_start htiling ranges, Relocation.carry_pairwise_le htiling⟩

/-- Two ranges that overlap in a changed line. -/
theorem relocate_pairwise_le_overlapping :
    (∀ r ∈ [(⟨2, 4⟩ : LineRange), ⟨1, 2⟩], ∀ s ∈ [(⟨2, 4⟩ : LineRange), ⟨1, 2⟩],
        r.isValid = true → s.isValid = true → r.start < s.start → r.stop ≤ s.stop) ∧
      InOrder 4 4 [⟨2, 2, 1⟩, ⟨3, 3, 0⟩, ⟨3, 3, 1⟩] ∧
      (Relocation.carry (Segment.ofRuns 4 4 [⟨2, 2, 1⟩, ⟨3, 3, 0⟩, ⟨3, 3, 1⟩])
        [⟨1, 2⟩, ⟨2, 4⟩]).Pairwise (fun r s => r.le s = true) ∧
      relocate [⟨2, 4⟩, ⟨1, 2⟩] "a\nb\nc\nd\n" "x\ny\nc\nd\n" .myers = [⟨1, 2⟩, ⟨1, 4⟩] ∧
      (relocate [⟨2, 4⟩, ⟨1, 2⟩] "a\nb\nc\nd\n" "x\ny\nc\nd\n" .myers).Pairwise
        (fun r s => r.le s = true) := by
  have hnested : ∀ r ∈ [(⟨2, 4⟩ : LineRange), ⟨1, 2⟩], ∀ s ∈ [(⟨2, 4⟩ : LineRange), ⟨1, 2⟩],
      r.isValid = true → s.isValid = true → r.start < s.start → r.stop ≤ s.stop := by decide
  have horder : InOrder 4 4 [⟨2, 2, 1⟩, ⟨3, 3, 0⟩, ⟨3, 3, 1⟩] := ⟨by decide, by decide⟩
  obtain ⟨hruns, -, hle⟩ := relocate_pairwise_le [⟨2, 4⟩, ⟨1, 2⟩] "a\nb\nc\nd\n" "x\ny\nc\nd\n" .myers
  have hcarried := (hruns _ horder).2 hnested
  rw [@LineRange.sort_eq_of_perm _ [⟨1, 2⟩, ⟨2, 4⟩] (by decide), LineRange.sort,
    List.mergeSort_of_pairwise (by decide)] at hcarried
  refine ⟨hnested, horder, hcarried, ?_, hle hnested⟩
  rw [relocate_eq_carry [⟨1, 2⟩, ⟨2, 4⟩] (by decide) (by decide)]
  decide +kernel

/-- A range within another one that starts in the same changed lines comes out behind it, though it
now starts on the same line and stops earlier. -/
theorem relocate_nested_not_sorted :
    relocate [⟨1, 4⟩, ⟨2, 3⟩] "a\nb\nc\nd\n" "x\ny\nc\nd\n" .myers = [⟨1, 4⟩, ⟨1, 3⟩] ∧
      ¬ (relocate [⟨1, 4⟩, ⟨2, 3⟩] "a\nb\nc\nd\n" "x\ny\nc\nd\n" .myers).Pairwise
        (fun r s => r.le s = true) := by
  have hmoved : relocate [⟨1, 4⟩, ⟨2, 3⟩] "a\nb\nc\nd\n" "x\ny\nc\nd\n" .myers =
      [⟨1, 4⟩, ⟨1, 3⟩] := by
    rw [relocate_eq_carry [⟨1, 4⟩, ⟨2, 3⟩] (by decide) (by decide)]
    decide +kernel
  refine ⟨hmoved, ?_⟩
  rw [hmoved]
  decide

end LineScope
