import LineScope.Proofs.Relocation.Tiling
import LineScope.Relocation.Range
import Mathlib.Data.List.TakeWhile
import Mathlib.Order.Bounds.Basic

/-!
# Where the lines of a range went

A range is carried by looking at the segments of its first and its last line only. Since segments
stand in order and a changed one has unchanged neighbours, the lines in between cannot reach
further, and an end without new lines falls on the line next to it.
-/
namespace LineScope

open Diff

namespace Segment

/-- What an old line of the segment became: any of the new lines if the segment is changed, else the
line at the same place. -/
def image (s : Segment) (line : Nat) : LineRange :=
  if s.changed then s.new
  else ⟨line - s.old.start + s.new.start, line - s.old.start + s.new.start⟩

def Before (s t : Segment) : Prop := s.old.stop < t.old.start ∧ s.new.stop < t.new.start

theorem newStart_eq (s : Segment) (line : Nat) :
    Relocation.newStart s line = (s.image line).start := by
  unfold Relocation.newStart image
  split <;> rfl

theorem newStop_eq (s : Segment) (line : Nat) :
    Relocation.newStop s line = (s.image line).stop := by
  unfold Relocation.newStop image
  split <;> rfl

end Segment

/-- All new lines that the old lines of a range became. -/
def Relocation.images (segments : List Segment) (range : LineRange) : Set Nat :=
  {m | ∃ line, range.contains line = true ∧
    ∃ s ∈ segments, s.old.contains line = true ∧ (s.image line).contains m = true}

namespace Tiling

variable {v : Versions} {segments : List Segment} {p q s : Segment} {l l' : Nat}

theorem pairwise_before (h : Tiling v segments) : segments.Pairwise Segment.Before := by
  have hle := h.start_le
  have hchain := h.following
  clear h
  induction segments with
  | nil => exact .nil
  | cons s rest ih =>
    obtain ⟨hnext, hrest⟩ := List.isChain_cons.mp hchain
    have hbefore := ih (fun t ht => hle t (List.mem_cons_of_mem _ ht)) hrest
    refine List.pairwise_cons.mpr ⟨fun t ht => ?_, hbefore⟩
    cases rest with
    | nil => cases ht
    | cons next more =>
      have hs := hnext next rfl
      have hn := hle next (by simp)
      unfold Segment.Before
      rcases List.mem_cons.mp ht with rfl | ht
      · omega
      · have ht := (List.pairwise_cons.mp hbefore).1 t ht
        unfold Segment.Before at ht
        omega

/-- Of two lines, the earlier one lies in the same segment or in one before. -/
theorem eq_or_before (h : Tiling v segments) (hp : p ∈ segments) (hq : q ∈ segments)
    (hl : p.old.contains l = true) (hl' : q.old.contains l' = true) (hle : l ≤ l') :
    p = q ∨ p.Before q := by
  rw [LineRange.contains_iff] at hl hl'
  obtain ⟨before, after, rfl⟩ := List.append_of_mem hp
  obtain ⟨-, hafter, hcross⟩ := List.pairwise_append.mp h.pairwise_before
  rcases List.mem_append.mp hq with hq | hq
  · have := (hcross q hq p List.mem_cons_self).1
    omega
  · rcases List.mem_cons.mp hq with rfl | hq
    · exact .inl rfl
    · exact .inr ((List.pairwise_cons.mp hafter).1 q hq)

theorem eq_of_contains (h : Tiling v segments) (hp : p ∈ segments) (hq : q ∈ segments)
    (hl : p.old.contains l = true) (hl' : q.old.contains l = true) : p = q := by
  rcases h.eq_or_before hp hq hl hl' (Nat.le_refl l) with rfl | hpq
  · rfl
  · rw [LineRange.contains_iff] at hl hl'
    have := hpq.1
    omega

theorem exists_mem (h : Tiling v segments) (hpos : 0 < l) (hle : l ≤ v.old.size) :
    ∃ s ∈ segments, s.old.contains l = true := by
  have hne : segments ≠ [] := fun hnil => by
    have := (h.eq_nil_iff.mp hnil).1
    omega
  have hhead : ∀ s ∈ segments.head?, s.old.start ≤ l := fun s hs => by
    have := (h.first s hs).1
    omega
  have hlast : ∀ s ∈ segments.getLast?, l ≤ s.old.stop := fun s hs => by
    have := (h.last s hs).1
    omega
  have hchain := h.following
  clear h
  induction segments with
  | nil => exact absurd rfl hne
  | cons s rest ih =>
    by_cases hs : l ≤ s.old.stop
    · exact ⟨s, List.mem_cons_self, LineRange.contains_iff.mpr ⟨hhead s rfl, hs⟩⟩
    · cases rest with
      | nil => exact absurd (hlast s rfl) hs
      | cons next more =>
        obtain ⟨hnext, hmore⟩ := List.isChain_cons_cons.mp hchain
        obtain ⟨t, ht, hl⟩ := ih (List.cons_ne_nil _ _)
          (fun t ht => by obtain rfl := Option.some.inj ht; omega)
          (by rwa [List.getLast?_cons_cons] at hlast) hmore
        exact ⟨t, List.mem_cons_of_mem _ ht, hl⟩

theorem start_pos (h : Tiling v segments) (hs : s ∈ segments) : 0 < s.old.start := by
  obtain ⟨before, after, rfl⟩ := List.append_of_mem hs
  rcases List.eq_nil_or_concat before with rfl | ⟨before, prev, rfl⟩
  · have := (h.first s rfl).1
    omega
  · have := (List.pairwise_append.mp h.pairwise_before).2.2 prev (by simp) s List.mem_cons_self
    unfold Segment.Before at this
    omega

theorem stop_le (h : Tiling v segments) (hs : s ∈ segments) : s.old.stop ≤ v.old.size := by
  obtain ⟨before, after, rfl⟩ := List.append_of_mem hs
  rcases List.eq_nil_or_concat after with rfl | ⟨after, last, rfl⟩
  · have := (h.last s (by simp)).1
    omega
  · have hlast := (h.last last (by simp [List.getLast?_cons])).1
    have hle := h.start_le last (by simp)
    have := (List.pairwise_cons.mp (List.pairwise_append.mp h.pairwise_before).2.1).1 last (by simp)
    unfold Segment.Before at this
    omega

/-- An unchanged segment is as long on both sides, and not empty. -/
theorem span_eq (h : Tiling v segments) (hs : s ∈ segments) (hunchanged : s.changed = false) :
    s.old.start ≤ s.old.stop ∧ s.new.stop + s.old.start = s.new.start + s.old.stop := by
  obtain ⟨hlength, hpos, -⟩ := h.unchanged s hs hunchanged
  have hold := LineRange.length_pos_iff.mp hpos
  have hnew := LineRange.length_pos_iff.mp (hlength ▸ hpos)
  rw [LineRange.length_eq hold, LineRange.length_eq hnew] at hlength
  omega

/-- After a changed segment comes an unchanged one, unless the old version ends. -/
theorem exists_next (h : Tiling v segments) (hs : s ∈ segments) (hchanged : s.changed = true) :
    s.old.stop = v.old.size ∨ ∃ next ∈ segments, next.changed = false ∧
      next.old.start = s.old.stop + 1 ∧ next.new.start = s.new.stop + 1 := by
  obtain ⟨before, after, rfl⟩ := List.append_of_mem hs
  cases after with
  | nil => exact .inl (h.last s (by simp)).1
  | cons next after =>
    have hnext := (List.isChain_append.mp h.following).2.1
    have hturns := (List.isChain_append.mp h.alternating).2.1
    exact .inr ⟨next, by simp, by simpa [hchanged] using (List.isChain_cons_cons.mp hturns).1,
      (List.isChain_cons_cons.mp hnext).1⟩

/-- Before a changed segment stands an unchanged one, unless the old version starts. -/
theorem exists_prev (h : Tiling v segments) (hs : s ∈ segments) (hchanged : s.changed = true) :
    s.old.start = 1 ∨ ∃ prev ∈ segments, prev.changed = false ∧
      s.old.start = prev.old.stop + 1 ∧ s.new.start = prev.new.stop + 1 := by
  obtain ⟨before, after, rfl⟩ := List.append_of_mem hs
  rcases List.eq_nil_or_concat before with rfl | ⟨before, prev, rfl⟩
  · exact .inl (h.first s rfl).1
  · have hprev := (List.isChain_append.mp h.following).2.2 prev (by simp) s rfl
    have hturns := (List.isChain_append.mp h.alternating).2.2 prev (by simp) s rfl
    exact .inr ⟨prev, by simp, by simpa [hchanged] using hturns, hprev⟩

/-- The new lines of an old one lie within its segment. -/
theorem image_within (h : Tiling v segments) (hs : s ∈ segments) (hl : s.old.contains l = true) :
    s.new.start ≤ (s.image l).start ∧ (s.image l).start ≤ (s.image l).stop + 1 ∧
      (s.image l).stop ≤ s.new.stop := by
  unfold Segment.image
  split
  · exact ⟨Nat.le_refl _, (h.start_le s hs).2, Nat.le_refl _⟩
  · next hunchanged =>
    have hspan := h.span_eq hs (by simpa using hunchanged)
    rw [LineRange.contains_iff] at hl
    simp only
    omega

/-- Later lines do not become earlier ones. -/
theorem image_mono (h : Tiling v segments) (hp : p ∈ segments) (hq : q ∈ segments)
    (hl : p.old.contains l = true) (hl' : q.old.contains l' = true) (hle : l ≤ l') :
    (p.image l).start ≤ (q.image l').start ∧ (p.image l).stop ≤ (q.image l').stop := by
  rcases h.eq_or_before hp hq hl hl' hle with rfl | hbefore
  · unfold Segment.image
    split
    · exact ⟨Nat.le_refl _, Nat.le_refl _⟩
    · simp only
      omega
  · have hpl := h.image_within hp hl
    have hql := h.image_within hq hl'
    have := hbefore.2
    omega

section Hull

variable {first last : Segment} {range : LineRange}

theorem mem_bounds (h : Tiling v segments) (hf : first ∈ segments) (hl : last ∈ segments)
    (hstart : first.old.contains range.start = true) (hstop : last.old.contains range.stop = true)
    {m : Nat} (hm : m ∈ Relocation.images segments range) :
    (first.image range.start).start ≤ m ∧ m ≤ (last.image range.stop).stop := by
  obtain ⟨line, hline, s, hs, hsline, hm⟩ := hm
  rw [LineRange.contains_iff] at hline hm
  have hlow := h.image_mono hf hs hstart hsline hline.1
  have hhigh := h.image_mono hs hl hsline hstop hline.2
  omega

/-- If the first line has no new lines, the line after its segment has the one that comes next. -/
theorem start_mem_images (h : Tiling v segments) (hf : first ∈ segments) (hl : last ∈ segments)
    (hstart : first.old.contains range.start = true) (hstop : last.old.contains range.stop = true)
    (hvalid : range.start ≤ range.stop)
    (hle : (first.image range.start).start ≤ (last.image range.stop).stop) :
    (first.image range.start).start ∈ Relocation.images segments range := by
  by_cases hsome : (first.image range.start).start ≤ (first.image range.start).stop
  · exact ⟨range.start, LineRange.contains_iff.mpr ⟨Nat.le_refl _, hvalid⟩, first, hf, hstart,
      LineRange.contains_iff.mpr ⟨Nat.le_refl _, hsome⟩⟩
  · have hchanged : first.changed = true := by
      by_contra hunchanged
      simp [Segment.image, hunchanged] at hsome
    have himage : first.image range.start = first.new := if_pos hchanged
    have hstop' := LineRange.contains_iff.mp hstop
    have hstart' := LineRange.contains_iff.mp hstart
    -- the range goes on behind the segment, else it would have no new lines at all
    have hbehind : first.old.stop < range.stop := by
      by_contra hwithin
      have heq := h.eq_of_contains hf hl
        (LineRange.contains_iff.mpr ⟨hstart'.1.trans hvalid, by omega⟩) hstop
      subst heq
      rw [himage] at hsome hle
      rw [Segment.image, if_pos hchanged] at hle
      omega
    rcases h.exists_next hf hchanged with hend | ⟨next, hnext, hunchanged, hold, hnew⟩
    · have := h.stop_le hl
      omega
    · have hspan := h.span_eq hnext hunchanged
      have hempty := (h.start_le first hf).2
      refine ⟨next.old.start, LineRange.contains_iff.mpr ⟨by omega, by omega⟩, next, hnext,
        LineRange.contains_iff.mpr ⟨Nat.le_refl _, hspan.1⟩, ?_⟩
      · rw [himage] at hsome ⊢
        simp only [Segment.image, hunchanged, Bool.false_eq_true, if_false, LineRange.contains_iff]
        omega

/-- If the last line has no new lines, the line before its segment has the one that comes before. -/
theorem stop_mem_images (h : Tiling v segments) (hf : first ∈ segments) (hl : last ∈ segments)
    (hstart : first.old.contains range.start = true) (hstop : last.old.contains range.stop = true)
    (hvalid : range.start ≤ range.stop)
    (hle : (first.image range.start).start ≤ (last.image range.stop).stop) :
    (last.image range.stop).stop ∈ Relocation.images segments range := by
  by_cases hsome : (last.image range.stop).start ≤ (last.image range.stop).stop
  · exact ⟨range.stop, LineRange.contains_iff.mpr ⟨hvalid, Nat.le_refl _⟩, last, hl, hstop,
      LineRange.contains_iff.mpr ⟨hsome, Nat.le_refl _⟩⟩
  · have hchanged : last.changed = true := by
      by_contra hunchanged
      simp [Segment.image, hunchanged] at hsome
    have himage : last.image range.stop = last.new := if_pos hchanged
    have hstop' := LineRange.contains_iff.mp hstop
    have hstart' := LineRange.contains_iff.mp hstart
    have hbefore : range.start < last.old.start := by
      by_contra hwithin
      have heq := h.eq_of_contains hf hl hstart
        (LineRange.contains_iff.mpr ⟨by omega, hvalid.trans hstop'.2⟩)
      subst heq
      rw [himage] at hsome hle
      rw [Segment.image, if_pos hchanged] at hle
      omega
    rcases h.exists_prev hl hchanged with hend | ⟨prev, hprev, hunchanged, hold, hnew⟩
    · have := h.start_pos hf
      omega
    · have hspan := h.span_eq hprev hunchanged
      have hempty := (h.start_le last hl).2
      refine ⟨prev.old.stop, LineRange.contains_iff.mpr ⟨by omega, by omega⟩, prev, hprev,
        LineRange.contains_iff.mpr ⟨hspan.1, Nat.le_refl _⟩, ?_⟩
      · rw [himage] at hsome ⊢
        simp only [Segment.image, hunchanged, Bool.false_eq_true, if_false, LineRange.contains_iff]
        omega

end Hull

end Tiling

namespace Relocation

variable {v : Versions} {segments : List Segment} {first last : Segment} {range : LineRange}

theorem carry_singleton (h : Tiling v segments) (hf : first ∈ segments) (hl : last ∈ segments)
    (hstart : first.old.contains range.start = true) (hstop : last.old.contains range.stop = true)
    (hvalid : range.start ≤ range.stop) :
    carry segments [range] =
      if (first.image range.start).start ≤ (last.image range.stop).stop then
        [⟨(first.image range.start).start, (last.image range.stop).stop⟩] else [] := by
  obtain ⟨before, after, rfl⟩ := List.append_of_mem hf
  have hcross := (List.pairwise_append.mp h.pairwise_before).2.2
  have hstart' := LineRange.contains_iff.mp hstart
  have hstop' := LineRange.contains_iff.mp hstop
  have hskip : ∀ s ∈ before, (!s.old.contains range.start) = true := fun s hs => by
    have hbefore := (hcross s hs first List.mem_cons_self).1
    simp only [LineRange.contains, Bool.not_eq_true', Bool.and_eq_false_iff, decide_eq_false_iff_not]
    omega
  have hdrop : (before ++ first :: after).dropWhile (fun s => !s.old.contains range.start) =
      first :: after := by
    rw [List.dropWhile_append_of_pos hskip, List.dropWhile_cons_of_neg (by simp [hstart])]
  have hrest : last ∈ first :: after := by
    refine (List.mem_append.mp hl).resolve_left fun hmem => ?_
    have := (hcross last hmem first List.mem_cons_self).1
    omega
  have hfind : (first :: after).find? (·.old.contains range.stop) = some last := by
    obtain ⟨found, hfound⟩ := Option.isSome_iff_exists.mp
      (List.find?_isSome (p := (·.old.contains range.stop)).mpr ⟨last, hrest, hstop⟩)
    have hcontains : found.old.contains range.stop = true :=
      List.find?_some (p := fun s : Segment => s.old.contains range.stop) hfound
    rw [hfound, h.eq_of_contains (List.mem_append_right _ (List.mem_of_find?_eq_some hfound)) hl
      hcontains hstop]
  simp only [carry, hdrop, hfind, Segment.newStart_eq, Segment.newStop_eq, LineRange.isValid_iff]

/-- Nothing is carried from or to where there is no segment. -/
theorem carry_singleton_eq_nil
    (h : (∀ s ∈ segments, s.old.contains range.start = false) ∨
      ∀ s ∈ segments, s.old.contains range.stop = false) : carry segments [range] = [] := by
  unfold carry
  split
  · rfl
  · next first following hdrop =>
    have hsub : first :: following ⊆ segments :=
      hdrop ▸ (List.dropWhile_sublist _).subset
    have hfirst : first.old.contains range.start = true := by
      have hhead := List.head_dropWhile_not (fun s : Segment => !s.old.contains range.start)
        (l := segments) (by rw [hdrop]; exact List.cons_ne_nil _ _)
      simpa [hdrop] using hhead
    have hstop := h.resolve_left fun hnone => by
      rw [hnone first (hsub List.mem_cons_self)] at hfirst
      cases hfirst
    rw [List.find?_eq_none.mpr fun s hs => by rw [hstop s (hsub hs)]; exact Bool.false_ne_true]
    rfl

/-- What one range is carried to: the lines from the least to the greatest that its own lines became,
and nothing exactly if it runs backwards or outside the old version or nothing is left of it. -/
structure IsHull (oldLines : Nat) (segments : List Segment) (range : LineRange)
    (carried : List LineRange) : Prop where
  eq_nil_iff : carried = [] ↔ range.start = 0 ∨ range.stop < range.start ∨ oldLines < range.stop ∨
    images segments range = ∅
  hull : carried ≠ [] → ∃ moved, carried = [moved] ∧ IsLeast (images segments range) moved.start ∧
    IsGreatest (images segments range) moved.stop

theorem carry_singleton_hull (h : Tiling v segments) (hvalid : range.start ≤ range.stop) :
    IsHull v.old.size segments range (carry segments [range]) := by
  by_cases hwithin : 0 < range.start ∧ range.stop ≤ v.old.size
  · obtain ⟨first, hf, hstart⟩ := h.exists_mem hwithin.1 (hvalid.trans hwithin.2)
    obtain ⟨last, hl, hstop⟩ := h.exists_mem (hwithin.1.trans_le hvalid) hwithin.2
    have hbounds {m : Nat} := h.mem_bounds hf hl hstart hstop (m := m)
    rw [carry_singleton h hf hl hstart hstop hvalid]
    split
    · next hle =>
      have hleast := h.start_mem_images hf hl hstart hstop hvalid hle
      have hgreatest := h.stop_mem_images hf hl hstart hstop hvalid hle
      refine ⟨iff_of_false (List.cons_ne_nil _ _) ?_, fun _ => ⟨_, rfl, ⟨hleast, fun m hm => ?_⟩,
        ⟨hgreatest, fun m hm => ?_⟩⟩⟩
      · rintro (hzero | hbackwards | hpast | hempty)
        · omega
        · omega
        · omega
        · rw [hempty] at hleast
          exact hleast
      · exact (hbounds hm).1
      · exact (hbounds hm).2
    · next hbackwards =>
      refine ⟨iff_of_true rfl (.inr (.inr (.inr ?_))), fun hne => absurd rfl hne⟩
      refine Set.eq_empty_of_forall_notMem fun m hm => hbackwards ?_
      exact (hbounds hm).1.trans (hbounds hm).2
  · have hnil : carry segments [range] = [] := by
      apply carry_singleton_eq_nil
      by_cases hzero : range.start = 0
      · refine .inl fun s hs => Bool.eq_false_iff.mpr fun hmem => ?_
        have := h.start_pos hs
        rw [LineRange.contains_iff] at hmem
        omega
      · refine .inr fun s hs => Bool.eq_false_iff.mpr fun hmem => ?_
        have := h.stop_le hs
        rw [LineRange.contains_iff] at hmem
        omega
    exact ⟨iff_of_true hnil (by omega), fun hne => absurd hnil hne⟩

/-- A range that runs backwards is dropped before it is carried. -/
theorem carry_sort_hull (h : Tiling v segments) (range : LineRange) :
    IsHull v.old.size segments range
      (carry segments (LineRange.sort ([range].filter LineRange.isValid))) := by
  by_cases hvalid : range.start ≤ range.stop
  · rw [List.filter_cons_of_pos (LineRange.isValid_iff.mpr hvalid), List.filter_nil,
      LineRange.sort, List.mergeSort_singleton]
    exact carry_singleton_hull h hvalid
  · rw [List.filter_cons_of_neg (by rwa [LineRange.isValid_iff]), List.filter_nil, LineRange.sort,
      List.mergeSort_nil]
    exact ⟨iff_of_true rfl (.inr (.inl (Nat.not_le.mp hvalid))), fun hne => absurd rfl hne⟩

end Relocation

/-- By any matching of two texts, and by the one that each algorithm finds, a single range is carried
to the hull of what its lines became. -/
theorem relocate_singleton_hull (old new : String) (range : LineRange) :
    (∀ runs, Matches (.ofTexts old new) runs →
      Relocation.IsHull (Text.lines old).length
        (Segment.ofRuns (Text.lines old).length (Text.lines new).length runs) range
        (Relocation.carry
          (Segment.ofRuns (Text.lines old).length (Text.lines new).length runs)
          (LineRange.sort ([range].filter LineRange.isValid)))) ∧
      ∀ algorithm, Relocation.IsHull (Text.lines old).length (segments old new algorithm) range
        (relocate [range] old new algorithm) := by
  have hsize : (Versions.ofTexts old new).old.size = (Text.lines old).length := by
    simp [Versions.ofTexts]
  constructor
  · intro runs hruns
    rw [← hsize]
    exact Relocation.carry_sort_hull (tiling_ofTexts hruns) range
  · intro algorithm
    rw [← hsize]
    exact Relocation.carry_sort_hull (segments_tile old new algorithm) range

/-- The first and the last line are gone, and a new one stands between the others. -/
theorem relocate_singleton_hull_shrunk :
    Matches (.ofTexts "a\nb\nc\nd\n" "b\nx\nc\n") [⟨1, 0, 1⟩, ⟨2, 1, 0⟩, ⟨2, 2, 1⟩] ∧
      Relocation.carry (Segment.ofRuns 4 3 [⟨1, 0, 1⟩, ⟨2, 1, 0⟩, ⟨2, 2, 1⟩]) [⟨1, 4⟩] = [⟨1, 3⟩] ∧
      IsLeast (Relocation.images (Segment.ofRuns 4 3 [⟨1, 0, 1⟩, ⟨2, 1, 0⟩, ⟨2, 2, 1⟩]) ⟨1, 4⟩) 1 ∧
      IsGreatest
        (Relocation.images (Segment.ofRuns 4 3 [⟨1, 0, 1⟩, ⟨2, 1, 0⟩, ⟨2, 2, 1⟩]) ⟨1, 4⟩) 3 := by
  have hmatches : Matches (.ofTexts "a\nb\nc\nd\n" "b\nx\nc\n")
      [⟨1, 0, 1⟩, ⟨2, 1, 0⟩, ⟨2, 2, 1⟩] :=
    ⟨⟨by decide +kernel, by decide +kernel⟩, by decide +kernel⟩
  have hmoved : Relocation.carry (Segment.ofRuns 4 3 [⟨1, 0, 1⟩, ⟨2, 1, 0⟩, ⟨2, 2, 1⟩])
      (LineRange.sort ([(⟨1, 4⟩ : LineRange)].filter LineRange.isValid)) = [⟨1, 3⟩] := by
    decide +kernel
  have hhull := (relocate_singleton_hull "a\nb\nc\nd\n" "b\nx\nc\n" ⟨1, 4⟩).1 _ hmatches
  obtain ⟨moved, hsome, hleast, hgreatest⟩ := hhull.hull (ne_of_eq_of_ne hmoved (by simp))
  obtain rfl := List.singleton_inj.mp (hsome.symm.trans hmoved)
  exact ⟨hmatches, by decide +kernel, hleast, hgreatest⟩

end LineScope
