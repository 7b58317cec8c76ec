import LineScope.Proofs.Collapse.Region
import LineScope.Proofs.Parse.Tokens
import LineScope.Proofs.Tree.LeafLines

/-!
# Lowering numbers lines truly

All that lowering makes is cut by one cursor, apart from the marks of indentation around a body.
`Parse.Emits` has one case for each way in which leaves come about, and the lines are right in each.
-/
namespace LineScope

theorem Leaf.Climbs.linesAscend {lo hi : Nat} {leaves : List Leaf} (h : Leaf.Climbs lo leaves hi) :
    Leaf.LinesAscend leaves := by
  induction leaves generalizing lo with
  | nil => exact .nil
  | cons leaf rest ih =>
    cases rest with
    | nil => exact .singleton leaf
    | cons next more => exact .cons_cons h.2.1 (ih h.2)

namespace Parse

open Text

inductive Emits (source : Source) : Cursor → List Leaf → Cursor → Prop
  | nil (c : Cursor) : Emits source c [] c
  | append {c c' c'' : Cursor} {leaves more : List Leaf} (first : Emits source c leaves c')
      (second : Emits source c' more c'') : Emits source c (leaves ++ more) c''
  | take (c : Cursor) {kind : TokenKind} {start stop : Nat} (word : kind.isMark = false)
      (plain : kind ≠ .verbatim)
      (start_boundary : start ≤ source.length → IsBoundary source.chars start)
      (stop_boundary : stop ≤ source.length → IsBoundary source.chars stop) :
      Emits source c [(c.take source kind start stop).1] (c.take source kind start stop).2
  | newline (c : Cursor) : Emits source c [(c.takeNewline source).1] (c.takeNewline source).2
  | body {c c' : Cursor} {leaves : List Leaf} (line : Nat)
      (leaves_emitted : Emits source (c.takeNewline source).2 leaves c') :
      Emits source c ((c.takeNewline source).1 :: marker .indent line :: leaves ++
        [marker .dedent c'.lastLine]) c'

structure NodeEmits (source : Source) (p : Construct) : Prop where
  start : p.start ≤ source.length → IsBoundary source.chars p.start
  stop : p.stop ≤ source.length → IsBoundary source.chars p.stop
  expression : ∀ c, Emits source c (expression source c p).1.tokens (expression source c p).2
  compound : ∀ c symbol wrapper, Emits source c (compound source c symbol wrapper p).1.tokens
    (compound source c symbol wrapper p).2
  expressions : ∀ c, Emits source c (Shape.tokensOfAll (expressions source c p.parts).1)
    (expressions source c p.parts).2
  statements : ∀ c, Emits source c (Shape.tokensOfAll (statements source c .idle p.parts).1)
    (statements source c .idle p.parts).2
  clauses : ∀ c, Emits source c (Shape.tokensOfAll (clauses source c p.parts).1)
    (clauses source c p.parts).2
  matchCases : ∀ c, Emits source c (Shape.tokensOfAll (matchCases source c p.parts).1)
    (matchCases source c p.parts).2

section Lists

variable {source : Source} {parts : List Construct} (h : ∀ p ∈ parts, NodeEmits source p)

theorem close_emits (source : Source) (c : Cursor) (pending : Pending) :
    ∃ leaves, Shape.tokensOfAll (pending.close source c).1 =
        Shape.tokensOfAll pending.parts ++ leaves ∧
      Emits source c leaves (pending.close source c).2 := by
  rw [Pending.close]
  split
  · next hempty =>
    rw [List.isEmpty_iff.mp hempty]
    exact ⟨[], rfl, .nil c⟩
  · refine ⟨_, ?_, .newline c⟩
    simp [Shape.tokensOfAll, Shape.tokens]

include h

theorem expressions_emits (c : Cursor) :
    Emits source c (Shape.tokensOfAll (expressions source c parts).1)
      (expressions source c parts).2 := by
  induction parts generalizing c with
  | nil =>
    rw [expressions]
    exact .nil c
  | cons p rest ih =>
    rw [List.forall_mem_cons] at h
    rw [expressions]
    exact (h.1.expression c).append (ih h.2 _)

theorem matchCases_emits (c : Cursor) :
    Emits source c (Shape.tokensOfAll (matchCases source c parts).1)
      (matchCases source c parts).2 := by
  induction parts generalizing c with
  | nil =>
    rw [matchCases]
    exact .nil c
  | cons p rest ih =>
    rw [List.forall_mem_cons] at h
    obtain ⟨kind, start, stop, childless, below⟩ := p
    rw [matchCases]
    simp only
    by_cases hkind : kind = "case_clause"
    · simp only [if_pos hkind]
      exact (h.1.clauses c).append (ih h.2 _)
    · simp only [if_neg hkind]
      exact (h.1.expression c).append (ih h.2 _)

theorem definitions_emits (c : Cursor) :
    Emits source c (Shape.tokensOfAll (definitions source c parts).1)
      (definitions source c parts).2 := by
  induction parts generalizing c with
  | nil =>
    rw [definitions]
    exact .nil c
  | cons p rest ih =>
    rw [List.forall_mem_cons] at h
    rw [definitions]
    split
    · exact ih h.2 c
    · simp only
      cases compoundSymbol? p.kind with
      | some symbol => exact (h.1.compound c symbol .asyncFuncdef).append (ih h.2 _)
      | none => exact (h.1.expression c).append (ih h.2 _)

theorem decorators_emits (c : Cursor) :
    Emits source c (Shape.tokensOfAll (decorators source c parts).1)
      (decorators source c parts).2 := by
  induction parts generalizing c with
  | nil =>
    rw [decorators]
    exact .nil c
  | cons p rest ih =>
    rw [List.forall_mem_cons] at h
    obtain ⟨kind, start, stop, childless, below⟩ := p
    rw [decorators]
    split
    · simp only [Shape.tokensOfAll, Shape.tokens, Shape.tokensOfAll_append, List.append_assoc]
      exact (h.1.expressions c).append ((Emits.newline _).append (ih h.2 _))
    · exact ih h.2 c

theorem matchParts_emits (c : Cursor) :
    Emits source c (Shape.tokensOfAll (matchParts source c parts).1)
      (matchParts source c parts).2 := by
  induction parts generalizing c with
  | nil =>
    rw [matchParts]
    exact .nil c
  | cons p rest ih =>
    rw [List.forall_mem_cons] at h
    by_cases hkind : p.kind = "block"
    · rw [matchParts_of_block hkind]
      simp only [Shape.tokensOfAll, Shape.tokens, Shape.tokensOfAll_append]
      have hbody := Emits.body (c := c) ((p.parts.head?.map fun first =>
        source.index.lineOf first.start).getD (c.takeNewline source).2.lastLine)
        (h.1.matchCases (c.takeNewline source).2)
      simpa only [List.cons_append, List.append_assoc, List.nil_append] using
        hbody.append (ih h.2 _)
    · rw [matchParts_of_header hkind]
      exact (h.1.expression c).append (ih h.2 _)

theorem clauses_emits (c : Cursor) :
    Emits source c (Shape.tokensOfAll (clauses source c parts).1) (clauses source c parts).2 := by
  induction parts generalizing c with
  | nil =>
    rw [clauses]
    exact .nil c
  | cons p rest ih =>
    rw [List.forall_mem_cons] at h
    obtain ⟨kind, start, stop, childless, below⟩ := p
    rw [clauses]
    split
    · simp only [Shape.tokensOfAll_append]
      exact (h.1.clauses c).append (ih h.2 _)
    · split
      · split
        · exact ih h.2 c
        · next first _ =>
          simp only
          split
          · simp only [Shape.tokensOfAll_append]
            exact (h.1.statements c).append (ih h.2 _)
          · simp only [Shape.tokensOfAll, Shape.tokens, Shape.tokensOfAll_append]
            have hbody := Emits.body (c := c) (source.index.lineOf first.start)
              (h.1.statements (c.takeNewline source).2)
            exact hbody.append (ih h.2 _)
      · exact (h.1.expression c).append (ih h.2 _)

theorem statements_emits (c : Cursor) (pending : Pending) :
    ∃ leaves, Shape.tokensOfAll (statements source c pending parts).1 =
        Shape.tokensOfAll pending.parts ++ leaves ∧
      Emits source c leaves (statements source c pending parts).2 := by
  induction parts generalizing c pending with
  | nil =>
    rw [statements]
    exact close_emits source c pending
  | cons p rest ih =>
    rw [List.forall_mem_cons] at h
    rw [statements]
    split
    · obtain ⟨leaves, heq, hrest⟩ := ih h.2 (expression source c p).2
        ⟨pending.parts ++ [(expression source c p).1], !pending.separated⟩
      refine ⟨_, ?_, (h.1.expression c).append hrest⟩
      simp only [heq, Shape.tokensOfAll_append, Shape.tokensOfAll, List.append_nil,
        List.append_assoc]
    · obtain ⟨closing, hclosing, hclosed⟩ := close_emits source c pending
      simp only
      split
      · next symbol _ =>
        obtain ⟨leaves, heq, hrest⟩ := ih h.2
          (compound source (pending.close source c).2 symbol .asyncStmt p).2 .idle
        refine ⟨_, ?_, hclosed.append ((h.1.compound _ symbol .asyncStmt).append hrest)⟩
        have hidle : Shape.tokensOfAll Pending.idle.parts = [] := rfl
        simp only [Shape.tokensOfAll_append, Shape.tokensOfAll, heq, hclosing, hidle,
          List.nil_append, List.append_assoc]
      · obtain ⟨leaves, heq, hrest⟩ := ih h.2
          (expression source (pending.close source c).2 p).2
          ⟨[(expression source (pending.close source c).2 p).1], false⟩
        refine ⟨_, ?_, hclosed.append ((h.1.expression _).append hrest)⟩
        simp [heq, hclosing, Shape.tokensOfAll]

end Lists

theorem isMark_eq_false {kind : TokenKind} (h : kind.isOrdinary = true) : kind.isMark = false := by
  cases kind <;> first | rfl | cases h

theorem compound_emits {source : Source} {kind : String} {start stop : Nat} {childless : Bool}
    {parts : List Construct} (h : ∀ p ∈ parts, NodeEmits source p) (c : Cursor)
    (symbol wrapper : Symbol) :
    Emits source c (compound source c symbol wrapper (.node kind start stop childless parts)).1.tokens
      (compound source c symbol wrapper (.node kind start stop childless parts)).2 := by
  unfold compound
  split
  · simp only [Shape.tokens, Shape.tokensOfAll_append, tokensOfAll_stacked]
    exact (decorators_emits h c).append (definitions_emits h _)
  · exact matchParts_emits h c
  · split
    · exact .nil c
    · next first start stop childless below rest =>
      split
      · have hfirst := h (.node first start stop childless below) (by simp)
        simp only [Shape.tokens, Shape.tokensOfAll, List.append_nil]
        exact (Emits.take c rfl (by decide) hfirst.start hfirst.stop).append
          (clauses_emits (fun p hp => h p (by simp [hp])) _)
      · exact clauses_emits h c

theorem nodeEmits {source : Source} (p : Construct)
    (hp : ∀ n ∈ p.offsets, n ≤ source.length → IsBoundary source.chars n) :
    NodeEmits source p := by
  induction p with
  | node kind start stop childless parts ih =>
    rw [Construct.offsets, List.forall_mem_cons, List.forall_mem_cons] at hp
    obtain ⟨hstart, hstop, hoffsets⟩ := hp
    have hparts : ∀ p ∈ parts, NodeEmits source p := fun p hp =>
      ih p hp fun n hn => hoffsets n (Construct.mem_offsetsOfAll hp hn)
    refine ⟨hstart, hstop, fun c => ?_, compound_emits hparts, expressions_emits hparts, fun c => ?_,
      clauses_emits hparts, matchCases_emits hparts⟩
    · rw [expression]
      split
      · exact .take c (isMark_eq_false (isOrdinary_tokenKind _ _)) (tokenKind_ne_verbatim _ _) hstart hstop
      · exact expressions_emits hparts c
    · obtain ⟨leaves, heq, hemits⟩ := statements_emits hparts c .idle
      rw [Pending.idle, Shape.tokensOfAll, List.nil_append] at heq
      exact heq ▸ hemits

theorem lower_emits (text : String) (report : Report)
    (hreport : ∀ mark ∈ report.marks, ∀ n ∈ [mark.start, mark.stop],
      n ≤ byteLength text.toList → IsBoundary text.toList n) :
    ∃ c, Emits (.ofText text) .start (Shape.tokensOfAll (lower text report)) c := by
  have hparts : ∀ p ∈ report.parts, NodeEmits (.ofText text) p := fun p hp =>
    nodeEmits p (report.boundary_parts hreport p hp)
  have hend : IsBoundary (Source.ofText text).chars (Source.ofText text).length := isBoundary_length _
  obtain ⟨leaves, heq, hemits⟩ := statements_emits hparts .start .idle
  rw [Pending.idle, Shape.tokensOfAll, List.nil_append, ← Pending.idle] at heq
  rw [← heq] at hemits
  have hall := hemits.append
    (@Emits.take _ _ .endMarker _ _ rfl (by decide) (fun _ => hend) fun _ => hend)
  exact ⟨_, by rwa [lower, Shape.tokensOfAll_append]⟩

/-- Leaves between two cursors stand on the lines of their texts, and the cursor knows on which line
it is and on which the last text ended. -/
structure Numbers (text : String) (c : Cursor) (leaves : List Leaf) (c' : Cursor) : Prop where
  boundary : IsBoundary text.toList c'.offset
  here : (LineIndex.ofText text.toList).lineOf c'.offset =
    (LineIndex.ofText text.toList).lineOf c.offset + Leaf.feedCount leaves
  last : c'.lastLine = ((Leaf.lastWord? leaves).map Leaf.endLine).getD c.lastLine
  linesTrue : Leaf.LinesTrue ((LineIndex.ofText text.toList).lineOf c.offset) leaves

section Numbers

variable {text : String} {c c' c'' : Cursor} {leaves more : List Leaf}

theorem Numbers.append (h : Numbers text c leaves c') (hmore : Numbers text c' more c'') :
    Numbers text c (leaves ++ more) c'' where
  boundary := hmore.boundary
  here := by rw [hmore.here, h.here, Leaf.feedCount_append, Nat.add_assoc]
  last := by
    rw [hmore.last, h.last, Leaf.lastWord?_append]
    cases Leaf.lastWord? more <;> rfl
  linesTrue := h.linesTrue.append (h.here ▸ hmore.linesTrue)

theorem numbers_cut {leaf : Leaf} (hc : IsBoundary text.toList c.offset)
    (hcuts : Cuts (.ofText text) c [leaf] c') (hword : leaf.kind.isMark = false)
    (hline : leaf.line = (LineIndex.ofText text.toList).lineOf c.offset +
      lineFeeds leaf.trivia.toList)
    (hlast : c'.lastLine = leaf.endLine) : Numbers text c [leaf] c' := by
  obtain ⟨hboundary, hle, hchars, -⟩ := hcuts hc
  have hfeeds : lineFeeds (slice text.toList c.offset c'.offset) = Leaf.feedCount [leaf] := by
    rw [← show Leaf.chars [leaf] = slice text.toList c.offset c'.offset from hchars]
    simp [Leaf.chars, Leaf.feedCount, lineFeeds, List.count_append]
  refine ⟨hboundary, ?_, ?_, Leaf.linesTrue_singleton ?_ fun _ => hline⟩
  · rw [lineOf_add hc hboundary hle, hfeeds]
  · rw [Leaf.lastWord?_word hword, hlast]
    rfl
  · intro hkind
    rw [hkind] at hword
    cases hword

theorem numbers_take (hc : IsBoundary text.toList c.offset) {kind : TokenKind} {start stop : Nat}
    (hkind : kind.isMark = false) (hplain : kind ≠ .verbatim)
    (hstart : start ≤ byteLength text.toList → IsBoundary text.toList start)
    (hstop : stop ≤ byteLength text.toList → IsBoundary text.toList stop) :
    Numbers text c [(c.take (.ofText text) kind start stop).1]
      (c.take (.ofText text) kind start stop).2 := by
  have hfrom := @isBoundary_clamp (.ofText text) rfl _ _ hc hstart
  have hle : c.offset ≤ (Source.ofText text).length := hc.le_length
  refine numbers_cut hc (@take_cuts (.ofText text) rfl kind hplain start stop hstart hstop c) hkind
    ?_ rfl
  simp only [Cursor.take, String.toList_ofList]
  exact lineOf_add hc hfrom (by omega)

theorem numbers_newline (hc : IsBoundary text.toList c.offset) :
    Numbers text c [(c.takeNewline (.ofText text)).1] (c.takeNewline (.ofText text)).2 := by
  have hcut := takeNewline_newlineCut hc
  refine numbers_cut hc (@takeNewline_cuts (.ofText text) rfl c) ?_ ?_ ?_
  · rw [kind_takeNewline]
    rfl
  · rw [hcut.line, lineFeeds, List.count_eq_zero.mpr hcut.endsLine.trivia, Nat.add_zero]
  · rw [lastLine_takeNewline, Leaf.endLine, kind_takeNewline]

theorem Emits.numbers (h : Emits (.ofText text) c leaves c') (hc : IsBoundary text.toList c.offset) :
    Numbers text c leaves c' := by
  induction h with
  | nil c => exact ⟨hc, rfl, rfl, .nil⟩
  | append _ _ ih ihmore => exact (ih hc).append (ihmore (ih hc).boundary)
  | take c word plain start_boundary stop_boundary =>
    exact numbers_take hc word plain start_boundary stop_boundary
  | newline c => exact numbers_newline hc
  | @body c c' leaves line _ ih =>
    have hnewline := numbers_newline hc
    have hbody := ih hnewline.boundary
    have hindent : Numbers text (c.takeNewline (.ofText text)).2 [marker .indent line]
        (c.takeNewline (.ofText text)).2 :=
      ⟨hnewline.boundary, rfl, rfl, Leaf.linesTrue_singleton (by simp [marker])
        (by simp [marker, TokenKind.isMark])⟩
    have hinner := hnewline.append (hindent.append hbody)
    obtain ⟨last, hlast⟩ : ∃ last, Leaf.lastWord? ([(c.takeNewline (.ofText text)).1] ++
        ([marker .indent line] ++ leaves)) = some last := by
      rw [Leaf.lastWord?_append, Leaf.lastWord?_word (by rw [kind_takeNewline]; rfl)]
      cases Leaf.lastWord? ([marker .indent line] ++ leaves) <;> exact ⟨_, rfl⟩
    have hline := hinner.last
    rw [hlast, Option.map_some, Option.getD_some] at hline
    refine ⟨hinner.boundary, ?_, ?_, hinner.linesTrue.dedented hlast rfl hline⟩
    · rw [hinner.here, @Leaf.feedCount_append _ [marker .dedent _]]
      rfl
    · rw [Leaf.lastWord?_append _ [marker .dedent _], @Leaf.lastWord?_mark (marker .dedent _) rfl]
      exact hinner.last

end Numbers

/-- In a file laid out like a valid text, no leaf starts before the line on which the one in front of
it ends. -/
theorem lower_linesAscend (text : String) (report : Report) (h : LaidOut text report.parts) :
    Leaf.LinesAscend (Shape.tokensOfAll (lower text report)) := by
  obtain ⟨c, hreaches⟩ := lower_reaches text report h
  have hlined : Lined text .start := by
    rw [Lined, lineOf_eq]
    exact Nat.le_refl 1
  exact (hreaches.climbs hlined).1.linesAscend

/-- The leaves of a lowered text stand on the lines of their texts, and a dedent on the line on which
the last text in front of it ends. If the parse tree is laid out like that of a valid text, no leaf
starts before the line on which the one in front of it ends. -/
theorem lower_lines (text : String) (report : Report)
    (hreport : ∀ mark ∈ report.marks, ∀ n ∈ [mark.start, mark.stop],
      n ≤ byteLength text.toList → IsBoundary text.toList n) :
    Leaf.LinesTrue 1 ((Tree.ofShapes .fileInput (lower text report)).tokens [rootId]) ∧
      (LaidOut text report.parts →
        Leaf.LinesAscend ((Tree.ofShapes .fileInput (lower text report)).tokens [rootId])) := by
  rw [Tree.tokens_ofShapes]
  refine ⟨?_, lower_linesAscend text report⟩
  · obtain ⟨c, hemits⟩ := lower_emits text report hreport
    have hstart : (LineIndex.ofText text.toList).lineOf Cursor.start.offset = 1 := by
      rw [lineOf_eq]
      rfl
    exact hstart ▸ (hemits.numbers (isBoundary_zero _)).linesTrue

/-- Two blocks that end with one string of two lines. -/
theorem lower_lines_nested :
    let text := "if a:\r\n  if b:\n    \"x\ny\"\nc\n"
    let report : Report :=
      .node ⟨"module", 0, 28, false, false, false, false⟩
        [.node ⟨"if_statement", 0, 24, false, false, false, false⟩
            [.node ⟨"if", 0, 2, false, false, false, false⟩ [],
              .node ⟨"identifier", 3, 4, false, false, false, false⟩ [],
              .node ⟨":", 4, 5, false, false, false, false⟩ [],
              .node ⟨"block", 9, 24, false, false, false, false⟩
                [.node ⟨"if_statement", 9, 24, false, false, false, false⟩
                    [.node ⟨"if", 9, 11, false, false, false, false⟩ [],
                      .node ⟨"identifier", 12, 13, false, false, false, false⟩ [],
                      .node ⟨":", 13, 14, false, false, false, false⟩ [],
                      .node ⟨"block", 19, 24, false, false, false, false⟩
                        [.node ⟨"expression_statement", 19, 24, false, false, false, false⟩
                            [.node ⟨"string", 19, 24, false, false, false, false⟩ []]]]]],
          .node ⟨"expression_statement", 25, 26, false, false, false, false⟩
            [.node ⟨"identifier", 25, 26, false, false, false, false⟩ []]]
    LaidOut text report.parts ∧
      Leaf.LinesTrue 1 ((Tree.ofShapes .fileInput (lower text report)).tokens [rootId]) ∧
      Leaf.LinesAscend ((Tree.ofShapes .fileInput (lower text report)).tokens [rootId]) := by
  intro text report
  have h : LaidOut text report.parts := by constructor <;> decide +kernel
  obtain ⟨htrue, hascend⟩ := lower_lines text report (by decide +kernel)
  exact ⟨h, htrue, hascend h⟩

end Parse

end LineScope
