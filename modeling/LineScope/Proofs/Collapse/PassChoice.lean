import LineScope.Parse.Lowering
import LineScope.Proofs.Collapse.Shortcut
import LineScope.Proofs.Collapse.SourceText

/-!
# The text with and without the statement pass

A newline without a line break stands at the end of a text, and both ways of collapsing fold it or
leave it. So both gain the same line feed, and their texts differ at most in carriage returns.
-/
namespace LineScope

namespace Text

/-- Whether a text ends in a line break does not depend on carriage returns. -/
theorem Softened.breaks_iff {s s' : String} (h : Softened s s') : Breaks s ↔ Breaks s' := by
  induction h with
  | refl => rfl
  | tail _ hstep ih =>
    obtain ⟨a, b, rfl, rfl⟩ := hstep
    rw [ih, Text.breaks_iff, Text.breaks_iff]
    simp [List.getLast?_append]

theorem breaks_append_feeds {s : String} (h : Breaks s) (k : Nat) : Breaks (s ++ feeds k) := by
  cases k with
  | zero => rwa [feeds_zero, String.append_empty]
  | succ k => exact ⟨s ++ feeds k, by rw [feeds_add, feeds_one, String.append_assoc]⟩

end Text

open Text

namespace Collapse

open Leaf Grammar

namespace Coarsens

variable {a b : List Leaf}

/-- Where the only newline without a line break is folded, the text ends in a line feed. -/
theorem breaks (h : Coarsens Spoken a b) (hregular : ∀ x ∈ a, x.Regular) (hlast : EmptyLast a)
    (hone : empties a ≤ 1) (hlt : empties b < empties a) : Breaks (flow b) := by
  induction h with
  | refl tokens => exact absurd hlt (Nat.lt_irrefl _)
  | @trans a b c first second ihfirst ihsecond =>
    have hb := first.regular hregular
    have hb' := first.emptyLast hlast
    obtain ⟨j, hle, -⟩ := first.text hregular hlast
    by_cases hsecond : empties c < empties b
    · exact ihsecond hb hb' (by omega) hsecond
    · obtain ⟨k, -, hsoft⟩ := second.text hb hb'
      exact hsoft.breaks_iff.mp (breaks_append_feeds (ihfirst hregular hlast hone (by omega)) k)
  | @append a a' b b' opens left right ihleft ihright =>
    rw [EmptyLast, List.pairwise_append] at hlast
    rw [List.forall_mem_append] at hregular
    simp only [empties, List.countP_append] at hone hlt
    rw [flow_append (right.opens opens)]
    by_cases hright : empties b' < empties b
    · exact breaks_append _ (ihright hregular.2 hlast.2.1 (by unfold empties; omega) hright)
    · -- Behind the newline that was folded there are line feeds only.
      have hleft : empties a' < empties a := by
        unfold empties at hright ⊢
        omega
      obtain ⟨x, hx, hempty⟩ := List.countP_pos_iff.mp (Nat.lt_of_le_of_lt (Nat.zero_le _) hleft)
      obtain ⟨l, hl⟩ := exists_flow_feeds (right.blank fun y hy =>
        hlast.2.2 x hx y hy (of_decide_eq_true hempty))
      rw [hl]
      exact breaks_append_feeds (ihleft hregular.1 hlast.1 (by unfold empties; omega) hleft) l
  | @closed run starts ends =>
    cases run with
    | nil => exact absurd hlt (Nat.lt_irrefl _)
    | cons x more => exact ⟨_, flow_fold x more⟩
  | @header run newline spoken kind =>
    have hfold := empties_fold run
    simp only [empties, List.countP_append] at hone hlt hfold
    have hnewline : newline.value ≠ "" := by
      intro hvalue
      rw [List.countP_singleton, if_pos (by simp [IsEmptyNewline, kind, hvalue])] at hone hlt
      omega
    have hkind : newline.kind ≠ .verbatim := by simp [kind]
    obtain ⟨s, hs⟩ := exists_render_append (fold run) [newline]
    rw [← render_eq_flow (by simp [hkind]), hs]
    refine breaks_append s ?_
    simpa [render, breakAfter] using
      breaks_append newline.trivia (breaks_of_regular kind (hregular newline (by simp)) hnewline)

/-- The text is the same up to carriage returns and to a line feed for the newline that is folded. -/
theorem text_of_empties_le_one (h : Coarsens Spoken a b) (hregular : ∀ x ∈ a, x.Regular)
    (hlast : EmptyLast a) (hone : empties a ≤ 1) (hfinal : 0 < empties a → ¬Breaks (flow a)) :
    Softened (flow a ++ feeds (empties a - empties b)) (flow b) := by
  obtain ⟨k, hk, hsoft⟩ := h.text hregular hlast
  by_cases hlt : k + empties b < empties a
  · -- Then the text would have ended in a line feed before.
    obtain rfl : k = 0 := by omega
    rw [feeds_zero, String.append_empty] at hsoft
    have hbreaks := h.breaks hregular hlast hone (by omega)
    exact absurd (hsoft.breaks_iff.mpr hbreaks) (hfinal (by omega))
  · rwa [show empties a - empties b = k by omega]

end Coarsens

theorem shows_isEmptyNewline : Shows fun x => decide x.IsEmptyNewline := by
  rintro x (hx | hx | hx) <;> simp [IsEmptyNewline, hx]

theorem indents_isEmptyNewline {tokens : List Leaf}
    (h : tokens.IsChain fun x y => x.kind = .newline → y.kind = .indent → x.value ≠ "") :
    Indents (fun x => decide x.IsEmptyNewline) tokens := by
  refine h.imp fun x y hvalue hx hy => ?_
  simp [IsEmptyNewline, hvalue hx hy]

end Collapse

/-- The newlines of a program as a text has them. At most one has no line break: no text comes after
it, and the text before it does not end in a line break either. -/
structure Grammar.Block.Typeset (code : Block) (endMarker : Leaf) : Prop where
  decorated : code.WellDecorated
  headers : code.Headers Collapse.Worded
  regular : ∀ x ∈ code.tokens, x.Regular
  /-- The line breaks in front of a suite. -/
  indents : code.tokens.IsChain fun x y => x.kind = .newline → y.kind = .indent → x.value ≠ ""
  last : (code.tokens ++ [endMarker]).Pairwise fun x y =>
    x.IsEmptyNewline → y.trivia = "" ∧ y.value = ""
  single : Leaf.empties code.tokens ≤ 1
  final : 0 < Leaf.empties code.tokens → ¬Breaks (Leaf.render (code.tokens ++ [endMarker]))

namespace Collapse

open Leaf Grammar

variable {t : Tree} {code : Block} {endMarker : Leaf}

theorem empties_sealedFirst (h : t.IsProgram code endMarker) (htypeset : code.Typeset endMarker)
    (keep : LineSet) (wholeStatements : Bool) :
    empties (blockTokens keep (sealedFirst keep wholeStatements code)) =
      empties (blockTokens keep code) := by
  unfold sealedFirst
  split
  · have hlines := (List.pairwise_append.mp h.ascending.pairwise).1
    rw [empties, empties, List.countP_eq_length_filter, List.countP_eq_length_filter,
      filter_sealBlock shows_isEmptyNewline code h.wf h.fresh
        (indents_isEmptyNewline htypeset.indents) hlines htypeset.decorated]
  · rfl

/-- What is left of a text depends on the choice of passes by carriage returns only. -/
theorem softened_source (h : t.IsProgram code endMarker) (htypeset : code.Typeset endMarker)
    (ranges : List LineRange) (wholeStatements : Bool) :
    ∃ u summary, t.collapseUnchanged ranges wholeStatements = ⟨u, .ok summary⟩ ∧
      Softened (t.source ++ feeds (empties code.tokens -
        empties (blockTokens (.ofRanges ranges) code))) u.source := by
  obtain ⟨u, summary, hok, htokens⟩ := collapseUnchanged_program h ranges wholeStatements
  have hcoarsens := coarsens_program h htypeset.headers (.ofRanges ranges) wholeStatements
  have hsoft := hcoarsens.text_of_empties_le_one (regular_endMarker h.kind htypeset.regular)
    (emptyLast_of_pairwise htypeset.last)
    (by rw [empties_endMarker h.kind]; exact htypeset.single)
    (by rw [empties_endMarker h.kind, ← render_endMarker h.kind]; exact htypeset.final)
  rw [empties_endMarker h.kind, empties_endMarker h.kind, empties_sealedFirst h htypeset,
    ← render_endMarker h.kind, ← render_endMarker h.kind, ← tokens_program h, ← htokens] at hsoft
  exact ⟨u, summary, hok, hsoft⟩

end Collapse

open Collapse Grammar

/-- With and without the statement pass the text is the same up to carriage returns in front of line
feeds. -/
theorem Tree.collapseUnchanged_same_text {t : Tree} {code : Block} {endMarker : Leaf}
    (h : t.IsProgram code endMarker) (htypeset : code.Typeset endMarker) (ranges : List LineRange) :
    ∃ u v whole lines, t.collapseUnchanged ranges true = ⟨u, .ok whole⟩ ∧
      t.collapseUnchanged ranges false = ⟨v, .ok lines⟩ ∧
      (∃ k ≤ 1, Softened (t.source ++ feeds k) u.source ∧ Softened (t.source ++ feeds k) v.source) ∧
      ((∀ a b, t.source ++ "\n" ≠ a ++ "\r\n" ++ b) → u.source = v.source) := by
  obtain ⟨u, whole, hwhole, hu⟩ := softened_source h htypeset ranges true
  obtain ⟨v, lines, hlines, hv⟩ := softened_source h htypeset ranges false
  have hone := htypeset.single
  generalize hk : Leaf.empties code.tokens - Leaf.empties (blockTokens (.ofRanges ranges) code) = k
    at hu hv
  have hle : k ≤ 1 := by omega
  refine ⟨u, v, whole, lines, hwhole, hlines, ⟨k, hle, hu, hv⟩, fun hcrlf => ?_⟩
  have hclean : ∀ a b, t.source ++ feeds k ≠ a ++ "\r\n" ++ b := by
    intro a b heq
    refine hcrlf a (b ++ feeds (1 - k)) ?_
    rw [← String.append_assoc, ← heq, String.append_assoc, ← feeds_add, ← feeds_one]
    exact congrArg (t.source ++ feeds ·) (by omega)
  rw [hu.eq_of_forall_ne hclean, hv.eq_of_forall_ne hclean]

/-- A line break of two characters inside a statement is kept with the statement pass only. -/
theorem Parse.crlf_differs :
    let text := "if x:\r\n    y\r\n    z\r\nw\r\n"
    let report : Parse.Report :=
      .node ⟨"module", 0, 24, false, false, false, false⟩
        [.node ⟨"if_statement", 0, 19, false, false, false, false⟩
            [.node ⟨"if", 0, 2, false, false, false, false⟩ [],
              .node ⟨"identifier", 3, 4, false, false, false, false⟩ [],
              .node ⟨":", 4, 5, false, false, false, false⟩ [],
              .node ⟨"block", 11, 19, false, false, false, false⟩
                [.node ⟨"expression_statement", 11, 12, false, false, false, false⟩
                    [.node ⟨"identifier", 11, 12, false, false, false, false⟩ []],
                  .node ⟨"expression_statement", 18, 19, false, false, false, false⟩
                    [.node ⟨"identifier", 18, 19, false, false, false, false⟩ []]]],
          .node ⟨"expression_statement", 21, 22, false, false, false, false⟩
            [.node ⟨"identifier", 21, 22, false, false, false, false⟩ []]]
    ∃ t, Parse.tree text report = .ok t ∧
      (t.collapseUnchanged [] true).tree.source = "if x:\r\n    y\r\n    z\nw\n" ∧
      (t.collapseUnchanged [] false).tree.source = "if x:\r\n    y\n    z\nw\n" :=
  ⟨_, rfl, by decide +kernel, by decide +kernel⟩

end LineScope
