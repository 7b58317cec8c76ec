import LineScope.Collapse.Unchanged
import Mathlib.Data.Set.Card
import Mathlib.Order.Interval.Finset.Nat

/-!
# Sets of lines as unions of ranges

A set of lines is kept as spans with gaps in between. That form is the only one for the lines that
are in it, so a set made from ranges depends on the lines that the ranges cover and on nothing else.
It answers as a set to which the lines are added one at a time, and in which they are looked up one
at a time.
-/
namespace LineScope

/-- The lines of at least one of the ranges. -/
def LineRange.covered (rs : List LineRange) : Set Nat :=
  {line | ∃ r ∈ rs, r.start ≤ line ∧ line ≤ r.stop}

namespace LineRange

def lines (r : LineRange) : List Nat := List.range' r.start r.length

def addTo (r : LineRange) (filled : Finset Nat) : Finset Nat :=
  r.lines.foldl (fun filled line => insert line filled) filled

def fill (rs : List LineRange) : Finset Nat := rs.foldl (fun filled r => r.addTo filled) ∅

theorem mem_lines {r : LineRange} {line : Nat} : line ∈ r.lines ↔ r.start ≤ line ∧ line ≤ r.stop := by
  rw [lines, List.mem_range'_1, length]
  split <;> omega

theorem mem_addTo {r : LineRange} {filled : Finset Nat} {line : Nat} :
    line ∈ r.addTo filled ↔ (r.start ≤ line ∧ line ≤ r.stop) ∨ line ∈ filled := by
  have hfold (lines : List Nat) : line ∈ lines.foldl (fun filled line => insert line filled) filled ↔
      line ∈ lines ∨ line ∈ filled := by
    induction lines generalizing filled with
    | nil => simp
    | cons next rest ih =>
      rw [List.foldl_cons, ih, Finset.mem_insert, List.mem_cons, or_left_comm, or_assoc]
  rw [addTo, hfold, mem_lines]

end LineRange

/-- The spans answer as a set of single lines does. -/
structure LineSet.Refines (set : LineSet) (filled : Finset Nat) : Prop where
  contains (line : Nat) : set.contains line = decide (line ∈ filled)
  intersects (r : LineRange) : set.intersects r = r.lines.any fun line => line ∈ filled
  size : set.size = filled.card
  isEmpty : set.isEmpty = decide (filled = ∅)

section Spans

variable {r s : LineRange} {spans others : List LineRange} {line : Nat}

open LineRange

theorem covered_nil : covered [] = ∅ := by simp [covered]

theorem mem_covered_cons :
    line ∈ covered (r :: spans) ↔ (r.start ≤ line ∧ line ≤ r.stop) ∨ line ∈ covered spans := by
  simp [covered]

theorem Separated.tail (h : Separated (r :: spans)) : Separated spans :=
  ⟨fun s hs => h.1 s (by simp [hs]), (List.pairwise_cons.mp h.2).2⟩

theorem Separated.lt_of_mem_covered (h : Separated (r :: spans)) (hline : line ∈ covered spans) :
    r.stop + 1 < line := by
  obtain ⟨s, hs, hstart, -⟩ := hline
  have hgap := (List.pairwise_cons.mp h.2).1 s hs
  omega

theorem Separated.start_le (h : Separated (r :: spans)) (hline : line ∈ covered (r :: spans)) :
    r.start ≤ line := by
  have hvalid := h.1 r (by simp)
  rcases mem_covered_cons.mp hline with hr | hrest
  · exact hr.1
  · have hgap := h.lt_of_mem_covered hrest
    omega

theorem Separated.mem_covered_tail_iff (h : Separated (r :: spans)) :
    line ∈ covered spans ↔ line ∈ covered (r :: spans) ∧ r.stop < line := by
  rw [mem_covered_cons]
  constructor
  · intro hline
    have hgap := h.lt_of_mem_covered hline
    exact ⟨.inr hline, by omega⟩
  · rintro ⟨hr | hline, hlt⟩
    · omega
    · exact hline

theorem Separated.start_mem (h : Separated (r :: spans)) : r.start ∈ covered (r :: spans) :=
  mem_covered_cons.mpr (.inl ⟨Nat.le_refl _, h.1 r (by simp)⟩)

/-- A span that begins within the first span or right behind it ends there as well: no other span
takes over. -/
theorem Separated.stop_le (h : Separated (r :: spans))
    (hcovered : covered (s :: others) ⊆ covered (r :: spans)) (hstart : s.start ≤ r.stop + 1) :
    s.stop ≤ r.stop := by
  by_contra hlt
  have hnext : r.stop + 1 ∈ covered (s :: others) := mem_covered_cons.mpr (.inl (by omega))
  have hrest : r.stop + 1 ∈ covered spans := h.mem_covered_tail_iff.mpr ⟨hcovered hnext, by omega⟩
  have hgap := h.lt_of_mem_covered hrest
  omega

/-- Spans with gaps between them are told by the lines that they cover. -/
theorem Separated.eq_of_covered (h : Separated spans) (hothers : Separated others)
    (hcovered : covered spans = covered others) : spans = others := by
  induction spans generalizing others with
  | nil =>
    cases others with
    | nil => rfl
    | cons s others =>
      have hmem := hothers.start_mem
      simp [← hcovered, covered_nil] at hmem
  | cons r spans ih =>
    cases others with
    | nil =>
      have hmem := h.start_mem
      simp [hcovered, covered_nil] at hmem
    | cons s others =>
      have hstart : r.start = s.start := by
        have hrs := h.start_le (hcovered ▸ hothers.start_mem)
        have hsr := hothers.start_le (hcovered ▸ h.start_mem)
        omega
      have hstop : r.stop = s.stop := by
        have hr := h.1 r (by simp)
        have hs := hothers.1 s (by simp)
        have hsr := h.stop_le hcovered.ge (by omega)
        have hrs := hothers.stop_le hcovered.le (by omega)
        omega
      obtain rfl : r = s := by
        cases r
        cases s
        simp_all
      rw [ih h.tail hothers.tail]
      ext line
      rw [h.mem_covered_tail_iff, hothers.mem_covered_tail_iff, hcovered]

theorem covered_cons (r : LineRange) (spans : List LineRange) :
    covered (r :: spans) = ↑(Finset.Icc r.start r.stop) ∪ covered spans := by
  ext line
  rw [mem_covered_cons]
  simp

theorem finite_covered (rs : List LineRange) : (covered rs).Finite := by
  induction rs with
  | nil => simp [covered_nil]
  | cons r rs ih =>
    rw [covered_cons]
    exact (Finset.finite_toSet _).union ih

/-- Spans with gaps between them are counted one by one. -/
theorem Separated.foldr_length (h : Separated spans) :
    spans.foldr (fun r n => r.length + n) 0 = (covered spans).ncard := by
  induction spans with
  | nil => simp [covered_nil]
  | cons r spans ih =>
    have hr := h.1 r (by simp)
    have hdisjoint : Disjoint (↑(Finset.Icc r.start r.stop) : Set Nat) (covered spans) := by
      rw [Set.disjoint_left]
      intro line hline hrest
      have hgap := h.lt_of_mem_covered hrest
      simp at hline
      omega
    rw [List.foldr_cons, ih h.tail, covered_cons,
      Set.ncard_union_eq hdisjoint (Finset.finite_toSet _) (finite_covered _), Set.ncard_coe_finset,
      Nat.card_Icc, length_eq hr]
    omega

end Spans

namespace LineSet

open LineRange

variable {set other : LineSet} {filled : Finset Nat} {line : Nat}

theorem contains_iff : set.contains line = true ↔ line ∈ covered set.spans := by
  simp [contains, covered, LineRange.contains_iff]

theorem covered_spans_ofRanges (rs : List LineRange) :
    covered (ofRanges rs).spans = covered rs := by
  ext line
  rw [← contains_iff, contains_ofRanges]
  simp [covered, LineRange.contains_iff]

/-- Sets with the same lines are the same. -/
theorem eq_of_covered (h : covered set.spans = covered other.spans) : set = other := by
  cases set with
  | mk spans separated =>
    cases other with
    | mk others separated' =>
      obtain rfl : spans = others := separated.eq_of_covered separated' h
      rfl

theorem isEmpty_iff : set.isEmpty = true ↔ covered set.spans = ∅ := by
  rw [isEmpty, List.isEmpty_iff]
  constructor
  · intro hnil
    rw [hnil, covered_nil]
  · intro hempty
    exact set.separated.eq_of_covered (by simp [Separated]) (hempty.trans covered_nil.symm)

/-- All answers follow from the lines that are in the set. -/
theorem refines_of_mem (h : ∀ line, set.contains line = true ↔ line ∈ filled) :
    set.Refines filled := by
  have hcovered : covered set.spans = ↑filled := by
    ext line
    rw [← contains_iff, h, Finset.mem_coe]
  constructor
  · intro line
    rw [Bool.eq_iff_iff, h, decide_eq_true_eq]
  · intro r
    rw [Bool.eq_iff_iff, intersects_iff, List.any_eq_true]
    refine exists_congr fun line => ?_
    rw [h, LineRange.contains_iff, mem_lines, decide_eq_true_eq, and_comm]
  · rw [size, set.separated.foldr_length, hcovered, Set.ncard_coe_finset]
  · rw [Bool.eq_iff_iff, isEmpty_iff, hcovered, Finset.coe_eq_empty, decide_eq_true_eq]

theorem empty_refines : empty.Refines ∅ := refines_of_mem (by simp [empty, contains])

theorem Refines.insert (h : set.Refines filled) (r : LineRange) :
    (set.insert r).Refines (r.addTo filled) := by
  apply refines_of_mem
  intro line
  rw [contains_insert, mem_addTo, Bool.or_eq_true, LineRange.contains_iff, h.contains,
    decide_eq_true_eq]

/-- Adding ranges as spans comes to the same as adding their lines one at a time. -/
theorem ofRanges_refines (rs : List LineRange) : (ofRanges rs).Refines (fill rs) := by
  have hfold (set : LineSet) (filled : Finset Nat) (h : set.Refines filled) :
      (rs.foldl insert set).Refines (rs.foldl (fun filled r => r.addTo filled) filled) := by
    induction rs generalizing set filled with
    | nil => exact h
    | cons r rest ih => exact ih _ _ (h.insert r)
  exact hfold empty ∅ empty_refines

/-- A set made from ranges has the lines of the union of the ranges; it answers for spans, for its
size and for emptiness as that union does, and collapsing depends on the union alone. The answers are
those of a set to which the lines of the ranges are added one at a time. -/
theorem ofRanges_union (rs : List LineRange) :
    (ofRanges rs).Refines (fill rs) ∧
      (∀ line, (ofRanges rs).contains line = true ↔ ∃ r ∈ rs, r.start ≤ line ∧ line ≤ r.stop) ∧
      (∀ start stop, (ofRanges rs).intersects ⟨start, stop⟩ = true ↔
        ∃ r ∈ rs, max r.start start ≤ min r.stop stop) ∧
      (∀ start stop, stop < start → (ofRanges rs).intersects ⟨start, stop⟩ = false) ∧
      (ofRanges rs).size = (covered rs).ncard ∧
      ((ofRanges rs).isEmpty = true ↔ ∀ r ∈ rs, r.stop < r.start) ∧
      ∀ more, covered rs = covered more → ofRanges rs = ofRanges more ∧
        ∀ (t : Tree) (wholeStatements : Bool),
          t.collapseUnchanged rs wholeStatements = t.collapseUnchanged more wholeStatements := by
  have hmem (line : Nat) : (ofRanges rs).contains line = true ↔
      ∃ r ∈ rs, r.start ≤ line ∧ line ≤ r.stop := by
    rw [contains_iff, covered_spans_ofRanges]
    rfl
  have hmeets (start stop : Nat) : (ofRanges rs).intersects ⟨start, stop⟩ = true ↔
      ∃ r ∈ rs, max r.start start ≤ min r.stop stop := by
    rw [intersects_iff]
    constructor
    · rintro ⟨line, hline, hwithin⟩
      obtain ⟨r, hr, hbounds⟩ := (hmem line).mp hline
      simp only [LineRange.contains_iff] at hwithin
      exact ⟨r, hr, by omega⟩
    · rintro ⟨r, hr, hoverlap⟩
      refine ⟨max r.start start, (hmem _).mpr ⟨r, hr, by omega⟩, ?_⟩
      simp only [LineRange.contains_iff]
      omega
  refine ⟨ofRanges_refines rs, hmem, hmeets, fun start stop hlt => ?_, ?_, ?_, fun more hcovered => ?_⟩
  · rw [Bool.eq_false_iff, ne_eq, hmeets]
    rintro ⟨r, -, hoverlap⟩
    omega
  · rw [size, (ofRanges rs).separated.foldr_length, covered_spans_ofRanges]
  · rw [isEmpty_iff, covered_spans_ofRanges, Set.eq_empty_iff_forall_notMem]
    constructor
    · intro hempty r hr
      by_contra hvalid
      exact hempty r.start ⟨r, hr, Nat.le_refl _, by omega⟩
    · rintro hbackwards line ⟨r, hr, hline⟩
      have hlt := hbackwards r hr
      omega
  · have hsame : ofRanges rs = ofRanges more := by
      apply eq_of_covered
      rw [covered_spans_ofRanges, covered_spans_ofRanges, hcovered]
    refine ⟨hsame, fun t wholeStatements => ?_⟩
    rw [Tree.collapseUnchanged, Tree.collapseUnchanged, hsame]

/-- Lines 1 to 4 in two overlapping ranges with a backwards one between them, and in three other
pieces. -/
theorem ofRanges_union_pieces :
    (ofRanges [⟨2, 4⟩, ⟨9, 6⟩, ⟨1, 3⟩]).size = (covered [⟨2, 4⟩, ⟨9, 6⟩, ⟨1, 3⟩]).ncard ∧
      (ofRanges [⟨2, 4⟩, ⟨9, 6⟩, ⟨1, 3⟩]).intersects ⟨6, 4⟩ = false ∧
      ofRanges [⟨2, 4⟩, ⟨9, 6⟩, ⟨1, 3⟩] = ofRanges [⟨1, 1⟩, ⟨2, 2⟩, ⟨3, 4⟩] := by
  obtain ⟨-, -, -, hreversed, hsize, -, hunion⟩ := ofRanges_union [⟨2, 4⟩, ⟨9, 6⟩, ⟨1, 3⟩]
  have hcovered : covered [⟨2, 4⟩, ⟨9, 6⟩, ⟨1, 3⟩] = covered [⟨1, 1⟩, ⟨2, 2⟩, ⟨3, 4⟩] := by
    ext line
    simp only [mem_covered_cons, covered_nil, Set.mem_empty_iff_false, or_false]
    omega
  exact ⟨hsize, hreversed 6 4 (by decide), (hunion _ hcovered).1⟩

end LineSet

end LineScope
