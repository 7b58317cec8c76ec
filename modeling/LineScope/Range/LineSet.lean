import LineScope.Range.Basic

/-! Sets of lines as ascending spans with a gap between any two. Every set has one such form. -/
namespace LineScope

/-- No span runs backwards, and between two spans lies at least one line. -/
def Separated (spans : List LineRange) : Prop :=
  (∀ r ∈ spans, r.start ≤ r.stop) ∧ spans.Pairwise fun r s => r.stop + 1 < s.start

structure LineSet where
  spans : List LineRange
  separated : Separated spans

namespace LineSet

/-- Adds the lines of `r`; spans that overlap or touch it become one with it. -/
def insertSpan (r : LineRange) : List LineRange → List LineRange
  | [] => [r]
  | s :: rest =>
    if r.stop + 1 < s.start then r :: s :: rest
    else if s.stop + 1 < r.start then s :: insertSpan r rest
    else insertSpan ⟨min r.start s.start, max r.stop s.stop⟩ rest

theorem lt_start_of_mem_insertSpan {spans : List LineRange} {r t : LineRange} {bound : Nat}
    (hr : bound < r.start) (hs : ∀ s ∈ spans, bound < s.start) (ht : t ∈ insertSpan r spans) :
    bound < t.start := by
  induction spans generalizing r with
  | nil => simp_all [insertSpan]
  | cons s rest ih =>
    have hhead := hs s (by simp)
    have hrest : ∀ s ∈ rest, bound < s.start := fun s h => hs s (by simp [h])
    simp only [insertSpan] at ht
    split at ht
    · simp only [List.mem_cons] at ht
      rcases ht with rfl | rfl | ht
      · exact hr
      · exact hhead
      · exact hrest t ht
    · split at ht
      · simp only [List.mem_cons] at ht
        rcases ht with rfl | ht
        · exact hhead
        · exact ih hr hrest ht
      · exact ih (by simp only; omega) hrest ht

theorem separated_insertSpan {spans : List LineRange} {r : LineRange} (hr : r.start ≤ r.stop)
    (h : Separated spans) : Separated (insertSpan r spans) := by
  induction spans generalizing r with
  | nil => simp [insertSpan, Separated, hr]
  | cons s rest ih =>
    obtain ⟨hvalid, hpair⟩ := h
    have hs := hvalid s (by simp)
    have hrest : Separated rest :=
      ⟨fun t ht => hvalid t (by simp [ht]), (List.pairwise_cons.1 hpair).2⟩
    have hgap := (List.pairwise_cons.1 hpair).1
    simp only [insertSpan]
    split
    · refine ⟨?_, List.pairwise_cons.2 ⟨?_, hpair⟩⟩
      · intro t ht
        rcases List.mem_cons.1 ht with rfl | ht
        · exact hr
        · exact hvalid t ht
      · intro t ht
        rcases List.mem_cons.1 ht with rfl | ht
        · assumption
        · have := hgap t ht
          omega
    · split
      · obtain ⟨hv, hp⟩ := ih hr hrest
        refine ⟨?_, List.pairwise_cons.2 ⟨?_, hp⟩⟩
        · intro t ht
          rcases List.mem_cons.1 ht with rfl | ht
          · exact hs
          · exact hv t ht
        · intro t ht
          exact lt_start_of_mem_insertSpan (by assumption) hgap ht
      · exact ih (by simp only; omega) hrest

def empty : LineSet := ⟨[], by simp [Separated]⟩

/-- Adds the lines of a range; one that runs backwards adds none. -/
def insert (set : LineSet) (r : LineRange) : LineSet :=
  if h : r.start ≤ r.stop then ⟨insertSpan r set.spans, separated_insertSpan h set.separated⟩
  else set

def ofRanges (rs : List LineRange) : LineSet := rs.foldl insert empty

def contains (set : LineSet) (line : Nat) : Bool := set.spans.any (·.contains line)

def intersects (set : LineSet) (r : LineRange) : Bool := set.spans.any (·.overlaps r)

def size (set : LineSet) : Nat := set.spans.foldr (fun r n => r.length + n) 0

def isEmpty (set : LineSet) : Bool := set.spans.isEmpty

theorem any_contains_insertSpan {spans : List LineRange} {r : LineRange} {line : Nat}
    (hr : r.start ≤ r.stop) (hs : ∀ s ∈ spans, s.start ≤ s.stop) :
    (insertSpan r spans).any (·.contains line) =
      (r.contains line || spans.any (·.contains line)) := by
  induction spans generalizing r with
  | nil => simp [insertSpan]
  | cons s rest ih =>
    have hhead := hs s (by simp)
    have hrest : ∀ s ∈ rest, s.start ≤ s.stop := fun s h => hs s (by simp [h])
    simp only [insertSpan]
    split
    · simp
    · split
      · simp only [List.any_cons, ih hr hrest]
        exact Bool.or_left_comm ..
      · have hjoin : LineRange.contains ⟨min r.start s.start, max r.stop s.stop⟩ line =
            (r.contains line || s.contains line) := by
          rw [Bool.eq_iff_iff, Bool.or_eq_true]
          simp only [LineRange.contains_iff]
          omega
        rw [ih (by simp only; omega) hrest, hjoin, List.any_cons, Bool.or_assoc]

/-- Adding a range adds its lines and no others. -/
theorem contains_insert (set : LineSet) (r : LineRange) (line : Nat) :
    (set.insert r).contains line = (r.contains line || set.contains line) := by
  unfold insert
  split
  · next h => exact any_contains_insertSpan h set.separated.1
  · next h =>
    have hr : r.contains line = false := by
      rw [Bool.eq_false_iff, ne_eq, LineRange.contains_iff]
      omega
    simp [hr]

theorem contains_ofRanges (rs : List LineRange) (line : Nat) :
    (ofRanges rs).contains line = rs.any (·.contains line) := by
  have hfold (set : LineSet) :
      (rs.foldl insert set).contains line = (set.contains line || rs.any (·.contains line)) := by
    induction rs generalizing set with
    | nil => simp
    | cons r rest ih =>
      rw [List.foldl_cons, ih, contains_insert, List.any_cons, Bool.or_right_comm, Bool.or_comm,
        Bool.or_left_comm]
  rw [ofRanges, hfold]
  rfl

theorem intersects_iff {set : LineSet} {r : LineRange} :
    set.intersects r = true ↔ ∃ line, set.contains line = true ∧ r.contains line = true := by
  simp only [intersects, contains, List.any_eq_true, LineRange.overlaps_iff]
  constructor
  · rintro ⟨s, hs, line, hline, hr⟩
    exact ⟨line, ⟨s, hs, hline⟩, hr⟩
  · rintro ⟨line, ⟨s, hs, hline⟩, hr⟩
    exact ⟨s, hs, line, hline, hr⟩

end LineSet

end LineScope
