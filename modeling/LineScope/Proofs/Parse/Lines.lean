import LineScope.Proofs.Parse.Arrangement
import LineScope.Proofs.Text.LineNumbers

/-!
# Lines of cut leaves

The line that a cursor remembers is never ahead of the line on which it stands, so the leaves cut
from it climb from line to line. A newline ends the line on which the cursor stands.
-/
namespace LineScope

namespace Leaf

/-- Leaves from one line to another, none of which starts before the line on which the one in front
of it ends. -/
def Climbs : Nat → List Leaf → Nat → Prop
  | lo, [], hi => lo ≤ hi
  | lo, leaf :: rest, hi => lo ≤ leaf.line ∧ Climbs leaf.endLine rest hi

variable {lo mid hi : Nat} {tokens more : List Leaf}

theorem Climbs.append (h : Climbs lo tokens mid) (hmore : Climbs mid more hi) :
    Climbs lo (tokens ++ more) hi := by
  induction tokens generalizing lo with
  | nil =>
    cases more with
    | nil => exact Nat.le_trans h hmore
    | cons leaf rest => exact ⟨Nat.le_trans h hmore.1, hmore.2⟩
  | cons leaf rest ih => exact ⟨h.1, ih h.2⟩

theorem Climbs.of_head {first : Leaf} (h : Climbs lo tokens hi) (hfirst : tokens.head? = some first)
    (hle : mid ≤ first.line) : Climbs mid tokens hi := by
  obtain ⟨rest, rfl⟩ := List.head?_eq_some_iff.mp hfirst
  exact ⟨hle, h.2⟩

end Leaf

namespace Parse

open Text

/-- The last leaf ended no later than the line of the cursor. -/
def Lined (text : String) (c : Cursor) : Prop :=
  c.lastLine ≤ (LineIndex.ofText text.toList).lineOf c.offset

section Cutting

variable {text : String} {c : Cursor}

theorem climbs_take {kind : TokenKind} {start stop : Nat}
    (hstart : start ≤ byteLength text.toList → IsBoundary text.toList start)
    (hstop : stop ≤ byteLength text.toList → IsBoundary text.toList stop)
    (hc : IsBoundary text.toList c.offset) (h : Lined text c) :
    Leaf.Climbs c.lastLine [(c.take (.ofText text) kind start stop).1]
        (c.take (.ofText text) kind start stop).2.lastLine ∧
      Lined text (c.take (.ofText text) kind start stop).2 := by
  have hfrom := @isBoundary_clamp (.ofText text) rfl _ _ hc hstart
  have hto := @isBoundary_clamp (.ofText text) rfl _ _ hfrom hstop
  have hle : c.offset ≤ (Source.ofText text).length := hc.le_length
  rw [Lined] at h ⊢
  simp only [Cursor.take, Leaf.Climbs, Nat.le_refl, and_true, Leaf.endLine, String.toList_ofList]
  generalize hm : min (max start c.offset) (Source.ofText text).length = m at hfrom hto ⊢
  generalize hn : min (max stop m) (Source.ofText text).length = n at hto ⊢
  refine ⟨h.trans (lineOf_mono _ (by omega)), ?_⟩
  split
  · exact lineOf_mono _ (by omega)
  · exact (lineOf_add hfrom hto (by omega)).ge

variable {before trivia value after : List Char}

theorem take_between (htext : text.toList = before ++ (trivia ++ (value ++ after)))
    (hc : c.offset = byteLength before) (kind : TokenKind) :
    (c.take (.ofText text) kind (c.offset + byteLength trivia)
        (c.offset + byteLength trivia + byteLength value)).1 =
      ⟨kind, String.ofList trivia, String.ofList value,
        (LineIndex.ofText text.toList).lineOf (c.offset + byteLength trivia)⟩ := by
  have hlength : (Source.ofText text).length =
      byteLength before + (byteLength trivia + (byteLength value + byteLength after)) := by
    simp [Source.ofText, htext, byteLength_append]
  have hfrom : min (max (c.offset + byteLength trivia) c.offset) (Source.ofText text).length =
      c.offset + byteLength trivia := by omega
  have hto : min (max (c.offset + byteLength trivia + byteLength value)
      (c.offset + byteLength trivia)) (Source.ofText text).length =
      c.offset + byteLength trivia + byteLength value := by omega
  have htrivia := slice_between before trivia (value ++ after)
  have hvalue := slice_between (before ++ trivia) value after
  rw [List.append_assoc, byteLength_append] at hvalue
  simp only [Cursor.take, hfrom, hto]
  simp only [Source.ofText, htext, hc, htrivia, hvalue]

theorem lineOf_between (htext : text.toList = before ++ (trivia ++ after))
    (hc : c.offset = byteLength before) (htrivia : '\n' ∉ trivia) :
    (LineIndex.ofText text.toList).lineOf (c.offset + byteLength trivia) =
      (LineIndex.ofText text.toList).lineOf c.offset := by
  have hcount : lineFeeds trivia = 0 := List.count_eq_zero.mpr htrivia
  rw [hc, ← byteLength_append, htext, lineOf_byteLength, ← List.append_assoc, lineOf_byteLength,
    lineFeeds, List.count_append, ← lineFeeds, ← lineFeeds, hcount]

/-- A newline, with the offset of its text, that ends its line. -/
structure EndsLine (text : String) (entry : Nat × Leaf) : Prop where
  trivia : '\n' ∉ entry.2.trivia.toList
  value : entry.2.value = "\n" ∨ entry.2.value = "\r\n" ∨
    entry.2.value = "" ∧ entry.1 = byteLength text.toList

structure NewlineCut (text : String) (c : Cursor) (leaf : Leaf) : Prop where
  line : leaf.line = (LineIndex.ofText text.toList).lineOf c.offset
  endsLine : EndsLine text (c.offset + byteLength leaf.trivia.toList, leaf)

theorem newlineCut_take (htext : text.toList = before ++ (trivia ++ (value ++ after)))
    (hc : c.offset = byteLength before) (htrivia : '\n' ∉ trivia)
    (hvalue : value = ['\n'] ∨ value = ['\r', '\n'] ∨ value = [] ∧ after = []) {start stop : Nat}
    (hstart : start = c.offset + byteLength trivia) (hstop : stop = start + byteLength value) :
    NewlineCut text c (c.take (.ofText text) .newline start stop).1 := by
  subst hstart hstop
  rw [take_between htext hc .newline]
  refine ⟨lineOf_between htext hc htrivia, by simpa using htrivia, ?_⟩
  rcases hvalue with rfl | rfl | ⟨rfl, rfl⟩
  · exact .inl rfl
  · exact .inr (.inl rfl)
  · refine .inr (.inr ⟨rfl, ?_⟩)
    simp [htext, hc, byteLength_append]

theorem takeNewline_newlineCut (hc : IsBoundary text.toList c.offset) :
    NewlineCut text c (c.takeNewline (.ofText text)).1 := by
  obtain ⟨before, rest, htext, hoffset⟩ := hc
  have hslice : slice (Source.ofText text).chars c.offset (Source.ofText text).length = rest := by
    have h := slice_between before rest []
    rw [List.append_nil, ← htext, hoffset] at h
    simp only [Source.ofText]
    rw [htext, byteLength_append, ← htext, hoffset, h]
  rw [Cursor.takeNewline, Cursor.lineBreak?, hslice]
  cases hfeed : lineFeed? rest with
  | none =>
    refine @newlineCut_take text c before rest [] [] (by simpa using htext) hoffset.symm
      (lineFeed?_eq_none hfeed) (.inr (.inr ⟨rfl, rfl⟩)) _ _ ?_ rfl
    simp [Source.ofText, htext, byteLength_append, hoffset]
  | some k =>
    obtain ⟨mid, after, rfl, rfl, hmid⟩ := lineFeed?_eq_some hfeed
    simp only [Option.map_some]
    split
    · next htwo =>
      rcases List.eq_nil_or_concat mid with rfl | ⟨init, ch, rfl⟩
      · simp [byteLength] at htwo
      · have hchars : (Source.ofText text).chars = (before ++ init) ++ ch :: ('\n' :: after) := by
          simp [Source.ofText, htext]
        have hfeed' : c.offset + byteLength (init.concat ch) =
            byteLength (before ++ init) + ch.utf8Size := by
          rw [List.concat_eq_append, byteLength_append, byteLength_append, hoffset]
          simp [byteLength, Nat.add_assoc]
        rw [hchars, hfeed'] at htwo
        obtain rfl := eq_cr_of_terminatorLength htwo.2
        refine @newlineCut_take text c before init ['\r', '\n'] after (by simp [htext]) hoffset.symm
          (fun hmem => hmid (by simp [hmem])) (.inr (.inl rfl)) _ _ ?_ ?_
        · rw [hfeed', byteLength_append, hoffset]
          rfl
        · rw [hfeed', byteLength_append]
          rfl
    · exact @newlineCut_take text c before mid ['\n'] after htext hoffset.symm hmid (.inl rfl) _ _
        rfl rfl

theorem lastLine_takeNewline (source : Source) (c : Cursor) :
    (c.takeNewline source).2.lastLine = (c.takeNewline source).1.line := by
  unfold Cursor.takeNewline
  split
  · rfl
  · split <;> rfl

theorem climbs_takeNewline (hc : IsBoundary text.toList c.offset) (h : Lined text c) :
    Leaf.Climbs c.lastLine [(c.takeNewline (.ofText text)).1]
        (c.takeNewline (.ofText text)).2.lastLine ∧
      Lined text (c.takeNewline (.ofText text)).2 := by
  obtain ⟨-, hle, -⟩ := @takeNewline_cuts (.ofText text) rfl c hc
  simp only [Leaf.Climbs, Leaf.endLine, kind_takeNewline, Lined, lastLine_takeNewline,
    (takeNewline_newlineCut hc).line, Nat.le_refl, and_true]
  exact ⟨h, lineOf_mono _ hle⟩

end Cutting

end Parse

end LineScope
