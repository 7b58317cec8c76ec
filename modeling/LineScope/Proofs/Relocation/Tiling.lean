import LineScope.Proofs.Diff.Tidying
import LineScope.Relocation.Segment
import Mathlib.Data.List.Chain

/-!
# Segments tile both versions

Whatever the matching, and whoever found it, the segments made from it cover both versions without
gap or overlap, and changed and unchanged ones take turns.
-/
namespace LineScope

namespace Diff

def Versions.ofTexts (old new : String) : Versions :=
  ⟨(Text.lines old).toArray, (Text.lines new).toArray⟩

/-- A matching of runs that are not empty, seen from index `i` and `j` on. -/
def Along (v : Versions) : Nat → Nat → List Run → Prop
  | i, j, [] => i ≤ v.old.size ∧ j ≤ v.new.size
  | i, j, run :: rest =>
    i ≤ run.old ∧ j ≤ run.new ∧ 0 < run.length ∧
      (∀ k < run.length, v.same (run.old + k) (run.new + k) = true) ∧
      Along v (run.old + run.length) (run.new + run.length) rest

theorem along_of_matches {v : Versions} {i j : Nat} {runs : List Run} (h : Matches v runs)
    (hpos : ∀ run ∈ runs, 0 < run.length) (hfrom : ∀ run ∈ runs, i ≤ run.old ∧ j ≤ run.new)
    (hi : i ≤ v.old.size) (hj : j ≤ v.new.size) : Along v i j runs := by
  induction runs generalizing i j with
  | nil => exact ⟨hi, hj⟩
  | cons run rest ih =>
    obtain ⟨hafter, hrest⟩ := List.pairwise_cons.mp h.ascending
    have hwithin := h.within run List.mem_cons_self
    obtain ⟨hold, hnew⟩ := hfrom run List.mem_cons_self
    refine ⟨hold, hnew, hpos run List.mem_cons_self, fun k hk => ?_, ?_⟩
    · have hlt : run.old + k < v.old.size := by omega
      have hline := h.equal run List.mem_cons_self k hk
      rw [Versions.same_iff]
      exact ⟨v.old[run.old + k], by simp [hlt], by rw [← hline]; simp [hlt]⟩
    · exact ih ⟨⟨fun r hr => h.within r (List.mem_cons_of_mem _ hr), hrest⟩,
          fun r hr => h.equal r (List.mem_cons_of_mem _ hr)⟩
        (fun r hr => hpos r (List.mem_cons_of_mem _ hr)) hafter hwithin.1 hwithin.2

theorem Matches.filter {v : Versions} {runs : List Run} (h : Matches v runs) (p : Run → Bool) :
    Matches v (runs.filter p) where
  within run hrun := h.within run (List.mem_of_mem_filter hrun)
  ascending := h.ascending.filter p
  equal run hrun := h.equal run (List.mem_of_mem_filter hrun)

theorem Matches.along {v : Versions} {runs : List Run} (h : Matches v runs) :
    Along v 0 0 (runs.filter fun run => 0 < run.length) := by
  apply along_of_matches (h.filter _)
  · intro run hrun
    simpa using (List.mem_filter.mp hrun).2
  · exact fun _ _ => ⟨Nat.zero_le _, Nat.zero_le _⟩
  · exact Nat.zero_le _
  · exact Nat.zero_le _

def Run.Continues (r s : Run) : Prop := r.old + r.length = s.old ∧ r.new + r.length = s.new

end Diff

open Diff

namespace Segment

variable {v : Versions} {i j : Nat}

theorem along_joinRuns {runs : List Run} (h : Along v i j runs) : Along v i j (joinRuns runs) := by
  induction runs generalizing i j with
  | nil => exact h
  | cons run rest ih =>
    obtain ⟨hold, hnew, hpos, hsame, hrest⟩ := h
    have hjoined := ih hrest
    unfold joinRuns
    split
    · next next more hnext =>
      rw [hnext] at hjoined
      obtain ⟨hold', hnew', hpos', hsame', hmore⟩ := hjoined
      split
      · next hcontinues =>
        rw [← hcontinues.1, ← hcontinues.2] at hsame' hmore
        rw [Nat.add_assoc, Nat.add_assoc] at hmore
        exact ⟨hold, hnew, Nat.add_pos_left hpos _, Versions.same_add hsame hsame', hmore⟩
      · exact ⟨hold, hnew, hpos, hsame, hold', hnew', hpos', hsame', hmore⟩
    · next hnil =>
      rw [hnil] at hjoined
      exact ⟨hold, hnew, hpos, hsame, hjoined⟩

theorem isChain_joinRuns (runs : List Run) :
    (joinRuns runs).IsChain fun r s => ¬ r.Continues s := by
  induction runs with
  | nil => exact .nil
  | cons run rest ih =>
    unfold joinRuns
    split
    · next next more hnext =>
      rw [hnext] at ih
      split
      · next hcontinues =>
        -- the joined run stops where `next` stops, and what follows did not continue that
        cases more with
        | nil => exact .singleton _
        | cons after more =>
          obtain ⟨hafter, hmore⟩ := List.isChain_cons_cons.mp ih
          refine List.isChain_cons_cons.mpr ⟨fun hlast => hafter ?_, hmore⟩
          unfold Run.Continues at hlast ⊢
          simp only at hlast
          omega
      · next hapart => exact List.isChain_cons_cons.mpr ⟨hapart, ih⟩
    · exact .singleton _

theorem gap_eq {run : Run} (hi : i ≤ run.old) (hj : j ≤ run.new) :
    gap i j run = if i = run.old ∧ j = run.new then []
      else [⟨⟨i + 1, run.old⟩, ⟨j + 1, run.new⟩, true⟩] := by
  simp only [gap, LineRange.isValid, Bool.or_eq_true, decide_eq_true_eq]
  split <;> split <;> first | rfl | omega

/-- What one segment promises on its own. -/
def Fits (v : Versions) (s : Segment) : Prop :=
  if s.changed then 0 < s.old.length ∨ 0 < s.new.length
  else s.old.length = s.new.length ∧ 0 < s.old.length ∧
    ∀ k < s.old.length, v.same (s.old.start - 1 + k) (s.new.start - 1 + k) = true

/-- The segments cover both versions from index `i` and `j` on. -/
def Tiles (v : Versions) : Nat → Nat → List Segment → Prop
  | i, j, [] => i = v.old.size ∧ j = v.new.size
  | i, j, s :: rest =>
    s.old.start = i + 1 ∧ s.new.start = j + 1 ∧ i ≤ s.old.stop ∧ j ≤ s.new.stop ∧ s.Fits v ∧
      Tiles v s.old.stop s.new.stop rest

theorem tiles_gap_append {run : Run} {rest : List Segment} (hi : i ≤ run.old) (hj : j ≤ run.new)
    (hrest : Tiles v run.old run.new rest) : Tiles v i j (gap i j run ++ rest) := by
  rw [gap_eq hi hj]
  split
  · next h =>
    rw [h.1, h.2]
    exact hrest
  · next h =>
    refine ⟨rfl, rfl, hi, hj, ?_, hrest⟩
    simp only [Fits, if_true, LineRange.length_pos_iff]
    omega

theorem fits_equal {run : Run} (hpos : 0 < run.length)
    (hsame : ∀ k < run.length, v.same (run.old + k) (run.new + k) = true) :
    (equal run).Fits v := by
  have hlength (start : Nat) : (⟨start + 1, start + run.length⟩ : LineRange).length = run.length := by
    rw [LineRange.length_eq (show start + 1 ≤ start + run.length by omega)]
    simp only
    omega
  simp only [Fits, equal, Bool.false_eq_true, if_false, hlength, Nat.add_sub_cancel, true_and]
  exact ⟨hpos, hsame⟩

theorem tiles_between {runs : List Run} (h : Along v i j runs) :
    Tiles v i j (between ⟨v.old.size, v.new.size, 0⟩ i j runs) := by
  induction runs generalizing i j with
  | nil =>
    rw [between, ← List.append_nil (gap ..)]
    exact tiles_gap_append h.1 h.2 ⟨rfl, rfl⟩
  | cons run rest ih =>
    obtain ⟨hold, hnew, hpos, hsame, hrest⟩ := h
    exact tiles_gap_append hold hnew
      ⟨rfl, rfl, Nat.le_add_right .., Nat.le_add_right .., fits_equal hpos hsame, ih hrest⟩

/-- Changed and unchanged segments take turns, and the first one is changed unless a run starts
right away. -/
theorem alternates_between {runs : List Run} (h : Along v i j runs)
    (hchain : runs.IsChain fun r s => ¬ r.Continues s) :
    (between ⟨v.old.size, v.new.size, 0⟩ i j runs).IsChain (fun a b => a.changed ≠ b.changed) ∧
      ∀ s ∈ (between ⟨v.old.size, v.new.size, 0⟩ i j runs).head?, s.changed = false →
        ∃ run ∈ runs.head?, run.old = i ∧ run.new = j := by
  induction runs generalizing i j with
  | nil =>
    rw [between, gap_eq h.1 h.2]
    split <;> simp
  | cons run rest ih =>
    obtain ⟨hold, hnew, -, -, hrest⟩ := h
    obtain ⟨hturns, hhead⟩ := ih hrest hchain.tail
    have hequal : (equal run :: between ⟨v.old.size, v.new.size, 0⟩ (run.old + run.length)
        (run.new + run.length) rest).IsChain (fun a b => a.changed ≠ b.changed) := by
      refine List.isChain_cons.mpr ⟨fun s hs hunchanged => ?_, hturns⟩
      obtain ⟨after, hafter, hcontinues⟩ := hhead s hs hunchanged.symm
      exact (List.isChain_cons.mp hchain).1 after hafter ⟨hcontinues.1.symm, hcontinues.2.symm⟩
    rw [between, gap_eq hold hnew]
    split
    · next hstart => exact ⟨hequal, fun _ _ _ => ⟨run, rfl, hstart.1.symm, hstart.2.symm⟩⟩
    · refine ⟨List.isChain_cons_cons.mpr ⟨by simp [equal], hequal⟩, ?_⟩
      simp

end Segment

/-- Segments that cover both versions line by line, changed and unchanged in turn. -/
structure Tiling (v : Versions) (segments : List Segment) : Prop where
  first : ∀ s ∈ segments.head?, s.old.start = 1 ∧ s.new.start = 1
  following : segments.IsChain fun s next =>
    next.old.start = s.old.stop + 1 ∧ next.new.start = s.new.stop + 1
  last : ∀ s ∈ segments.getLast?, s.old.stop = v.old.size ∧ s.new.stop = v.new.size
  eq_nil_iff : segments = [] ↔ v.old.size = 0 ∧ v.new.size = 0
  /-- Neither side runs backwards further than an empty one. -/
  start_le : ∀ s ∈ segments, s.old.start ≤ s.old.stop + 1 ∧ s.new.start ≤ s.new.stop + 1
  unchanged : ∀ s ∈ segments, s.changed = false →
    s.old.length = s.new.length ∧ 0 < s.old.length ∧
      ∀ k < s.old.length, ∃ line,
        v.old[s.old.start - 1 + k]? = some line ∧ v.new[s.new.start - 1 + k]? = some line
  changed : ∀ s ∈ segments, s.changed = true → 0 < s.old.length ∨ 0 < s.new.length
  alternating : segments.IsChain fun s next => s.changed ≠ next.changed

namespace Segment

variable {v : Versions} {i j : Nat} {segments : List Segment}

theorem Tiles.le (h : Tiles v i j segments) : i ≤ v.old.size ∧ j ≤ v.new.size := by
  induction segments generalizing i j with
  | nil => exact ⟨Nat.le_of_eq h.1, Nat.le_of_eq h.2⟩
  | cons s rest ih =>
    obtain ⟨-, -, hold, hnew, -, hrest⟩ := h
    exact ⟨hold.trans (ih hrest).1, hnew.trans (ih hrest).2⟩

theorem Tiles.following (h : Tiles v i j segments) :
    segments.IsChain fun s next =>
      next.old.start = s.old.stop + 1 ∧ next.new.start = s.new.stop + 1 := by
  induction segments generalizing i j with
  | nil => exact .nil
  | cons s rest ih =>
    obtain ⟨-, -, -, -, -, hrest⟩ := h
    refine List.isChain_cons.mpr ⟨fun next hnext => ?_, ih hrest⟩
    cases rest with
    | nil => cases hnext
    | cons _ _ =>
      obtain rfl := Option.some.inj hnext
      exact ⟨hrest.1, hrest.2.1⟩

theorem Tiles.last (h : Tiles v i j segments) :
    ∀ s ∈ segments.getLast?, s.old.stop = v.old.size ∧ s.new.stop = v.new.size := by
  induction segments generalizing i j with
  | nil => simp
  | cons s rest ih =>
    obtain ⟨-, -, -, -, -, hrest⟩ := h
    cases rest with
    | nil =>
      intro _ hs
      obtain rfl := Option.some.inj hs
      exact hrest
    | cons next more =>
      rw [List.getLast?_cons_cons]
      exact ih hrest

theorem Tiles.of_mem (h : Tiles v i j segments) :
    ∀ s ∈ segments, s.old.start ≤ s.old.stop + 1 ∧ s.new.start ≤ s.new.stop + 1 ∧ s.Fits v := by
  induction segments generalizing i j with
  | nil => simp
  | cons s rest ih =>
    obtain ⟨hold, hnew, hold', hnew', hfits, hrest⟩ := h
    refine List.forall_mem_cons.mpr ⟨⟨?_, ?_, hfits⟩, ih hrest⟩ <;> omega

theorem Tiles.tiling (h : Tiles v 0 0 segments)
    (hturns : segments.IsChain fun s next => s.changed ≠ next.changed) : Tiling v segments where
  first := by
    cases segments with
    | nil => simp
    | cons s rest =>
      intro _ hs
      obtain rfl := Option.some.inj hs
      exact ⟨h.1, h.2.1⟩
  following := h.following
  last := h.last
  eq_nil_iff := by
    cases segments with
    | nil => exact iff_of_true rfl ⟨h.1.symm, h.2.symm⟩
    | cons s rest =>
      obtain ⟨hold, hnew, -, -, hfits, hrest⟩ := h
      have hle := hrest.le
      have hcovers : 0 < s.old.length ∨ 0 < s.new.length := by
        unfold Fits at hfits
        split at hfits
        · exact hfits
        · exact .inl hfits.2.1
      simp only [LineRange.length_pos_iff] at hcovers
      simp only [reduceCtorEq, false_iff]
      omega
  start_le s hs := ⟨(h.of_mem s hs).1, (h.of_mem s hs).2.1⟩
  unchanged s hs hunchanged := by
    have hfits := (h.of_mem s hs).2.2
    rw [Fits, if_neg (by simp [hunchanged])] at hfits
    simpa only [Versions.same_iff] using hfits
  changed s hs hchanged := by
    have hfits := (h.of_mem s hs).2.2
    rwa [Fits, if_pos hchanged] at hfits
  alternating := hturns

theorem tiling_ofRuns {runs : List Run} (h : Matches v runs) :
    Tiling v (ofRuns v.old.size v.new.size runs) := by
  have hjoined := along_joinRuns h.along
  exact (tiles_between hjoined).tiling (alternates_between hjoined (isChain_joinRuns _)).1

end Segment

section Texts

variable {old new : String} {runs : List Run}

theorem tiling_ofTexts (h : Matches (.ofTexts old new) runs) :
    Tiling (.ofTexts old new)
      (Segment.ofRuns (Text.lines old).length (Text.lines new).length runs) := by
  simpa [Versions.ofTexts] using Segment.tiling_ofRuns h

theorem segments_tile (old new : String) (algorithm : Algorithm) :
    Tiling (.ofTexts old new) (segments old new algorithm) :=
  Segment.tiling_ofRuns (matches_equalRuns _ algorithm)

/-- Any matching of two texts makes segments that tile them, and so does the matching that each
algorithm finds. -/
theorem segments_tiling (old new : String) :
    (∀ runs, Matches (.ofTexts old new) runs →
      Tiling (.ofTexts old new)
        (Segment.ofRuns (Text.lines old).length (Text.lines new).length runs)) ∧
      ∀ algorithm, Matches (.ofTexts old new) (equalRuns (.ofTexts old new) algorithm) ∧
        Tiling (.ofTexts old new) (segments old new algorithm) :=
  ⟨fun _ => tiling_ofTexts, fun algorithm =>
    ⟨matches_equalRuns _ algorithm, segments_tile old new algorithm⟩⟩

/-- A line replaced by two, and a last line that lost its break, by runs of which one is empty. -/
theorem segments_tiling_replaced :
    Matches (.ofTexts "a\nb\nc\nd\n" "a\nx\ny\nc\nd") [⟨0, 0, 1⟩, ⟨1, 2, 0⟩, ⟨2, 3, 1⟩] ∧
      Segment.ofRuns 4 5 [⟨0, 0, 1⟩, ⟨1, 2, 0⟩, ⟨2, 3, 1⟩] =
        [⟨⟨1, 1⟩, ⟨1, 1⟩, false⟩, ⟨⟨2, 2⟩, ⟨2, 3⟩, true⟩, ⟨⟨3, 3⟩, ⟨4, 4⟩, false⟩,
          ⟨⟨4, 4⟩, ⟨5, 5⟩, true⟩] ∧
      Tiling (.ofTexts "a\nb\nc\nd\n" "a\nx\ny\nc\nd")
        (Segment.ofRuns 4 5 [⟨0, 0, 1⟩, ⟨1, 2, 0⟩, ⟨2, 3, 1⟩]) := by
  have hmatches : Matches (.ofTexts "a\nb\nc\nd\n" "a\nx\ny\nc\nd")
      [⟨0, 0, 1⟩, ⟨1, 2, 0⟩, ⟨2, 3, 1⟩] :=
    ⟨⟨by decide +kernel, by decide +kernel⟩, by decide +kernel⟩
  exact ⟨hmatches, by decide +kernel, (segments_tiling _ _).1 _ hmatches⟩

end Texts

end LineScope
