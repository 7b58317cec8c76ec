import LineScope.Proofs.Collapse.Program
import LineScope.Proofs.Text.LineBreaks

/-!
# Collapsing keeps the text

A folded line gives up its line break, and rendering puts a line feed in its place: of the text only
carriage returns in front of line feeds can be gone. A line that ended without a break gains one, and
then nothing but line feeds can follow it.
-/
namespace LineScope

open Text

namespace Leaf

def fileEnd : Leaf := ⟨.endMarker, "", "", 0⟩

/-- The text of some tokens in front of a token that is no newline. -/
def flow (tokens : List Leaf) : String := render (tokens ++ [fileEnd])

theorem flow_nil : flow [] = "" := rfl

theorem flow_cons (x : Leaf) (a : List Leaf) :
    flow (x :: a) = x.trivia ++ x.value ++ x.breakAfter (a ++ [fileEnd]) ++ flow a := rfl

theorem render_append {y : Leaf} (h : y.kind ≠ .newline) (a ys : List Leaf) :
    render (a ++ y :: ys) = flow a ++ render (y :: ys) := by
  have hbreak (x : Leaf) (a : List Leaf) : x.breakAfter (a ++ y :: ys) =
      x.breakAfter (a ++ [fileEnd]) := by
    cases a <;> simp [breakAfter, h, fileEnd]
  induction a with
  | nil => simp [flow_nil]
  | cons x a ih =>
    rw [List.cons_append, render, ih, hbreak, flow_cons]
    simp only [String.append_assoc]

theorem flow_append {a b : List Leaf} (h : Collapse.Opens b) : flow (a ++ b) = flow a ++ flow b := by
  cases b with
  | nil => rw [List.append_nil, flow_nil, String.append_empty]
  | cons y ys =>
    rw [flow, List.append_assoc]
    exact render_append (h y rfl) a _

theorem render_eq_flow {a : List Leaf} (h : ∀ x ∈ a.getLast?, x.kind ≠ .verbatim) :
    render a = flow a := by
  induction a with
  | nil => rfl
  | cons x a ih =>
    cases a with
    | nil =>
      have hx : x.kind ≠ .verbatim := h x rfl
      simp [flow_cons, flow_nil, render, breakAfter, hx]
    | cons y a =>
      rw [List.getLast?_cons_cons] at h
      rw [render, ih h, flow_cons]
      rfl

theorem flow_append_of_getLast? {a : List Leaf} (h : ∀ x ∈ a.getLast?, x.kind ≠ .verbatim)
    (b : List Leaf) : flow (a ++ b) = flow a ++ flow b := by
  induction a with
  | nil => simp [flow_nil]
  | cons x a ih =>
    cases a with
    | nil =>
      have hx : x.kind ≠ .verbatim := h x rfl
      have hbreak (rest : List Leaf) : x.breakAfter rest = "" := by
        cases rest <;> simp [breakAfter, hx]
      simp [flow_cons, flow_nil, hbreak]
    | cons y a =>
      rw [List.getLast?_cons_cons] at h
      rw [List.cons_append, flow_cons, ih h, flow_cons x (y :: a)]
      simp only [String.append_assoc]
      rfl

theorem exists_render_append (a b : List Leaf) : ∃ s, render (a ++ b) = s ++ render b := by
  induction a with
  | nil => exact ⟨"", String.empty_append.symm⟩
  | cons x a ih =>
    obtain ⟨s, hs⟩ := ih
    refine ⟨x.trivia ++ x.value ++ x.breakAfter (a ++ b) ++ s, ?_⟩
    rw [List.cons_append, render, hs]
    simp only [String.append_assoc]

/-- Newlines are line breaks or empty, and marks of indentation have no text. -/
def Regular (leaf : Leaf) : Prop :=
  (leaf.kind = .newline → leaf.value ∈ ["\n", "\r\n", ""]) ∧
    (leaf.kind = .indent ∨ leaf.kind = .dedent → leaf.trivia = "" ∧ leaf.value = "")

def IsEmptyNewline (leaf : Leaf) : Prop := leaf.kind = .newline ∧ leaf.value = ""

instance : DecidablePred IsEmptyNewline := fun leaf =>
  inferInstanceAs (Decidable (leaf.kind = .newline ∧ leaf.value = ""))

def empties (tokens : List Leaf) : Nat := tokens.countP IsEmptyNewline

def Blank (leaf : Leaf) : Prop := ∃ j k, leaf.trivia = feeds j ∧ leaf.value = feeds k

/-- Behind a newline without a line break there is no text. -/
def EmptyLast (tokens : List Leaf) : Prop :=
  tokens.Pairwise fun a b => a.IsEmptyNewline → b.Blank

theorem exists_render_feeds {a : List Leaf} (h : ∀ x ∈ a, x.Blank) : ∃ k, render a = feeds k := by
  have hbreak (x : Leaf) (a : List Leaf) : ∃ k, x.breakAfter a = feeds k := by
    cases a with
    | nil => exact ⟨0, rfl⟩
    | cons y a =>
      rw [breakAfter]
      split
      · exact ⟨1, rfl⟩
      · exact ⟨0, rfl⟩
  induction a with
  | nil => exact ⟨0, rfl⟩
  | cons x a ih =>
    rw [List.forall_mem_cons] at h
    obtain ⟨i, j, hi, hj⟩ := h.1
    obtain ⟨k, hk⟩ := hbreak x a
    obtain ⟨l, hl⟩ := ih h.2
    exact ⟨i + j + k + l, by rw [render, hi, hj, hk, hl, feeds_add, feeds_add, feeds_add]⟩

theorem exists_flow_feeds {a : List Leaf} (h : ∀ x ∈ a, x.Blank) : ∃ k, flow a = feeds k := by
  refine exists_render_feeds fun x hx => ?_
  rcases List.mem_append.mp hx with hx | hx
  · exact h x hx
  · rw [List.mem_singleton.mp hx]
    exact ⟨0, 0, rfl, rfl⟩

end Leaf

namespace Collapse

open Leaf Grammar

theorem render_bare {x : Leaf} {more : List Leaf}
    (h : ∀ y ∈ (x :: more).getLast?, y.kind ≠ .verbatim) :
    flow (x :: more) = x.trivia ++ render (x.bare :: more) := by
  have hbreak : x.bare.breakAfter more = x.breakAfter more := by
    cases more <;> rfl
  rw [← render_eq_flow h, render, render, hbreak]
  simp [Leaf.bare, String.append_assoc]

section Folds

variable {run : List Leaf}

theorem render_eq_empty {post : List Leaf} (hpost : ∀ x ∈ post, x.kind = .indent ∨ x.kind = .dedent)
    (hregular : ∀ x ∈ post, x.Regular) : render post = "" := by
  induction post with
  | nil => rfl
  | cons x post ih =>
    rw [List.forall_mem_cons] at hpost hregular
    obtain ⟨htrivia, hvalue⟩ := hregular.1.2 hpost.1
    have hbreak : x.breakAfter post = "" := by
      cases post with
      | nil => rfl
      | cons y post => rcases hpost.1 with hx | hx <;> simp [breakAfter, hx]
    rw [render, htrivia, hvalue, hbreak, ih hpost.2 hregular.2]
    rfl

theorem breaks_of_regular {newline : Leaf} (hkind : newline.kind = .newline)
    (hregular : newline.Regular) (hvalue : newline.value ≠ "") : Breaks newline.value := by
  have hspelled := hregular.1 hkind
  simp only [List.mem_cons, List.not_mem_nil, or_false, hvalue] at hspelled
  rcases hspelled with heq | heq
  · exact ⟨"", by rw [heq]; rfl⟩
  · exact ⟨"\r", by rw [heq]; rfl⟩

theorem empties_fold (run : List Leaf) : empties (fold run) = 0 := by
  cases run <;> simp [empties, fold, verbatim, IsEmptyNewline]

/-- A line ends in a line break, or its newline has none. -/
theorem Terminated.breaks {x : Leaf} {more : List Leaf} (h : Terminated (x :: more))
    (hregular : ∀ y ∈ x :: more, y.Regular) :
    Breaks (render (x.bare :: more)) ∨ 0 < empties (x :: more) := by
  obtain ⟨pre, newline, post, heq, hkind, hpost, -⟩ := h
  have hmem : newline ∈ x :: more := heq ▸ by simp
  by_cases hvalue : newline.value = ""
  · exact .inr (List.countP_pos_iff.mpr ⟨newline, hmem, by simp [IsEmptyNewline, hkind, hvalue]⟩)
  · have hbreaks := breaks_of_regular hkind (hregular newline hmem) hvalue
    have hrender : render post = "" := render_eq_empty hpost fun y hy => hregular y (heq ▸ by simp [hy])
    have hbreak (leaf : Leaf) (hleaf : leaf.kind = .newline) : leaf.breakAfter post = "" := by
      cases post <;> simp [breakAfter, hleaf]
    left
    cases pre with
    | nil =>
      obtain ⟨rfl, rfl⟩ := List.cons.inj heq
      rw [render, hbreak x.bare hkind, hrender]
      simpa [Leaf.bare] using hbreaks
    | cons y pre =>
      obtain ⟨rfl, rfl⟩ := List.cons.inj heq
      obtain ⟨s, hs⟩ := exists_render_append (x.bare :: pre) (newline :: post)
      change Breaks (render (x.bare :: pre ++ newline :: post))
      rw [hs, render, hbreak _ hkind, hrender, String.append_empty, String.append_empty]
      exact breaks_append s (breaks_append _ hbreaks)

theorem flow_fold (x : Leaf) (more : List Leaf) : flow (fold (x :: more)) =
    x.trivia ++ stripTerminator (render (x.bare :: more)) ++ "\n" := by
  simp [fold, flow_cons, flow_nil, breakAfter, verbatim, fileEnd]

/-- A line that is folded keeps its text up to the kind of its line break. -/
theorem softened_fold (h : Terminated run) (hregular : ∀ x ∈ run, x.Regular) :
    ∃ k, k + empties (fold run) ≤ empties run ∧ Softened (flow run ++ feeds k) (flow (fold run)) := by
  have hlast := h.getLast?
  cases run with
  | nil => exact ⟨0, Nat.le_refl _, .refl _⟩
  | cons x more =>
    rw [render_bare hlast, flow_fold, empties_fold]
    by_cases hbreaks : Breaks (render (x.bare :: more))
    · refine ⟨0, Nat.zero_le _, ?_⟩
      rw [feeds_zero, String.append_empty, String.append_assoc]
      exact .append_left _ (softened_stripTerminator hbreaks)
    · refine ⟨1, (h.breaks hregular).resolve_left hbreaks, ?_⟩
      rw [stripTerminator_of_not_breaks hbreaks, feeds_one]
      exact .refl _

def Spoken (run : List Leaf) : Prop :=
  ¬Breaks (render run) ∧ ∀ x ∈ run.getLast?, x.kind ≠ .verbatim

theorem Spoken.not_breaks_bare {x : Leaf} {more : List Leaf} (h : Spoken (x :: more)) :
    ¬Breaks (render (x.bare :: more)) := by
  obtain ⟨hbreaks, hlast⟩ := h
  rw [render_eq_flow hlast, render_bare hlast] at hbreaks
  exact fun hb => hbreaks (breaks_append _ hb)

theorem flow_header (h : Spoken run) {newline : Leaf} (hkind : newline.kind = .newline) :
    flow (fold run ++ [newline]) = flow (run ++ [newline]) := by
  cases run with
  | nil => rfl
  | cons x more =>
    rw [flow_append_of_getLast? h.2, render_bare h.2, fold, List.singleton_append, flow_cons]
    simp [verbatim, breakAfter, hkind, stripTerminator_of_not_breaks h.not_breaks_bare]

end Folds

namespace Coarsens

variable {Header : List Leaf → Prop} {a b : List Leaf}

theorem blank_fold {run : List Leaf} (h : ∀ x ∈ run, x.Blank) : ∀ x ∈ fold run, x.Blank := by
  cases run with
  | nil => simp [fold]
  | cons x more =>
    rw [List.forall_mem_cons] at h
    obtain ⟨⟨i, j, htrivia, hvalue⟩, hmore⟩ := h
    obtain ⟨k, hk⟩ := @exists_render_feeds (x.bare :: more)
      (List.forall_mem_cons.mpr ⟨⟨0, j, rfl, hvalue⟩, hmore⟩)
    intro y hy
    rw [List.mem_singleton.mp hy]
    exact ⟨i, k - 1, htrivia, by rw [verbatim, hk, stripTerminator_feeds]⟩

theorem blank (h : Coarsens Header a b) (ha : ∀ x ∈ a, x.Blank) : ∀ x ∈ b, x.Blank := by
  induction h with
  | refl tokens => exact ha
  | trans first second ihfirst ihsecond => exact ihsecond (ihfirst ha)
  | append opens left right ihleft ihright =>
    rw [List.forall_mem_append] at ha ⊢
    exact ⟨ihleft ha.1, ihright ha.2⟩
  | closed starts ends => exact blank_fold ha
  | header spoken kind =>
    rw [List.forall_mem_append] at ha ⊢
    exact ⟨blank_fold ha.1, ha.2⟩

theorem regular (h : Coarsens Header a b) (ha : ∀ x ∈ a, x.Regular) : ∀ x ∈ b, x.Regular := by
  intro x hx
  rcases h.kept x hx with hkind | hmem
  · simp [Regular, hkind]
  · exact ha x hmem

theorem isEmptyNewline (h : Coarsens Header a b) : ∀ x ∈ b, x.IsEmptyNewline → x ∈ a := by
  intro x hx hempty
  refine (h.kept x hx).resolve_left fun hkind => ?_
  rw [hempty.1] at hkind
  exact TokenKind.noConfusion hkind

theorem emptyLast (h : Coarsens Header a b) (ha : EmptyLast a) : EmptyLast b := by
  induction h with
  | refl tokens => exact ha
  | trans first second ihfirst ihsecond => exact ihsecond (ihfirst ha)
  | append opens left right ihleft ihright =>
    rw [EmptyLast, List.pairwise_append] at ha ⊢
    obtain ⟨hleft, hright, hcross⟩ := ha
    refine ⟨ihleft hleft, ihright hright, fun x hx y hy hempty => ?_⟩
    exact right.blank (fun z hz => hcross x (left.isEmptyNewline x hx hempty) z hz hempty) y hy
  | @closed run starts ends =>
    cases run with
    | nil => exact List.Pairwise.nil
    | cons x more => exact List.pairwise_singleton _ _
  | @header run newline spoken kind =>
    cases run with
    | nil => exact ha
    | cons x more =>
      refine List.pairwise_pair.mpr fun hempty => ?_
      exact TokenKind.noConfusion hempty.1

/-- Text behind a newline without a line break is made of line feeds, and those commute. -/
theorem text (h : Coarsens Spoken a b) (hregular : ∀ x ∈ a, x.Regular) (hlast : EmptyLast a) :
    ∃ k, k + empties b ≤ empties a ∧ Softened (flow a ++ feeds k) (flow b) := by
  induction h with
  | refl tokens =>
    refine ⟨0, by rw [Nat.zero_add], ?_⟩
    rw [feeds_zero, String.append_empty]
    exact .refl _
  | @trans a b c first second ihfirst ihsecond =>
    obtain ⟨j, hj, hfirst⟩ := ihfirst hregular hlast
    obtain ⟨k, hk, hsecond⟩ := ihsecond (first.regular hregular) (first.emptyLast hlast)
    refine ⟨j + k, by omega, ?_⟩
    rw [feeds_add, ← String.append_assoc]
    exact (hfirst.append_right _).trans hsecond
  | @append a a' b b' opens left right ihleft ihright =>
    rw [EmptyLast, List.pairwise_append] at hlast
    rw [List.forall_mem_append] at hregular
    obtain ⟨j, hj, hleft⟩ := ihleft hregular.1 hlast.1
    obtain ⟨k, hk, hright⟩ := ihright hregular.2 hlast.2.1
    have hmove : flow b ++ feeds j = feeds j ++ flow b := by
      cases j with
      | zero => rw [feeds_zero, String.append_empty, String.empty_append]
      | succ j =>
        have hpos : 0 < a.countP IsEmptyNewline := by
          change j + 1 + empties a' ≤ empties a at hj
          exact Nat.lt_of_lt_of_le (by omega) hj
        obtain ⟨x, hx, hempty⟩ := List.countP_pos_iff.mp hpos
        obtain ⟨l, hl⟩ := exists_flow_feeds fun y hy => hlast.2.2 x hx y hy (of_decide_eq_true hempty)
        rw [hl, feeds_comm]
    refine ⟨j + k, ?_, ?_⟩
    · simp only [empties, List.countP_append] at hj hk ⊢
      omega
    · have hsplit : flow (a ++ b) ++ feeds (j + k) = (flow a ++ feeds j) ++ (flow b ++ feeds k) := by
        rw [flow_append opens, feeds_add]
        calc flow a ++ flow b ++ (feeds j ++ feeds k)
            = flow a ++ (flow b ++ feeds j) ++ feeds k := by simp only [String.append_assoc]
          _ = (flow a ++ feeds j) ++ (flow b ++ feeds k) := by
            rw [hmove]
            simp only [String.append_assoc]
      rw [hsplit, flow_append (right.opens opens)]
      exact hleft.append hright
  | closed starts ends => exact softened_fold ends hregular
  | @header run newline spoken kind =>
    refine ⟨0, ?_, ?_⟩
    · have hnone := empties_fold run
      simp only [empties, List.countP_append] at hnone ⊢
      omega
    · rw [feeds_zero, String.append_empty, flow_header spoken kind]
      exact .refl _

end Coarsens

/-- The text of a header is not empty and does not end in a line break. -/
def Worded (header : List Shape) : Prop :=
  render (Shape.tokensOfAll header) ≠ "" ∧ ¬Breaks (render (Shape.tokensOfAll header))

theorem spoken_of_worded (before : List Leaf) {header : List Shape} (h : IsHeader header)
    (hworded : Worded header) : Spoken (before ++ Shape.tokensOfAll header) := by
  obtain ⟨s, hs⟩ := exists_render_append before (Shape.tokensOfAll header)
  exact ⟨hs ▸ not_breaks_append s hworded.1 hworded.2, header_getLast? h before⟩

section Program

variable {t : Tree} {code : Block} {endMarker : Leaf}

theorem render_endMarker (h : endMarker.kind = .endMarker) (tokens : List Leaf) :
    render (tokens ++ [endMarker]) = flow (tokens ++ [endMarker]) :=
  render_eq_flow (by simp [h])

theorem empties_endMarker (h : endMarker.kind = .endMarker) (tokens : List Leaf) :
    empties (tokens ++ [endMarker]) = empties tokens := by
  simp [empties, IsEmptyNewline, h]

theorem regular_endMarker (h : endMarker.kind = .endMarker) {tokens : List Leaf}
    (hregular : ∀ x ∈ tokens, x.Regular) : ∀ x ∈ tokens ++ [endMarker], x.Regular := by
  rw [List.forall_mem_append]
  exact ⟨hregular, by simp [Leaf.Regular, h]⟩

theorem emptyLast_of_pairwise {tokens : List Leaf} (h : tokens.Pairwise fun a b =>
    a.IsEmptyNewline → b.trivia = "" ∧ b.value = "") : EmptyLast tokens := by
  refine h.imp fun {a b} hab ha => ?_
  obtain ⟨htrivia, hvalue⟩ := hab ha
  exact ⟨0, 0, htrivia, hvalue⟩

theorem coarsens_program (h : t.IsProgram code endMarker) (hheaders : code.Headers Worded)
    (keep : LineSet) (wholeStatements : Bool) :
    Coarsens Spoken (code.tokens ++ [endMarker])
      (blockTokens keep (sealedFirst keep wholeStatements code) ++ [endMarker]) := by
  have hclosed : Opens [endMarker] := opens_cons (by simp [h.kind])
  refine .append hclosed (.trans (coarsens_sealedFirst h Spoken keep wholeStatements) ?_) (.refl _)
  exact coarsens_block (fun before header _ => spoken_of_worded before) _
    (sealedFirst_wf h.wf _ _) (sealedFirst_headers hheaders _ _)

end Program

end Collapse

open Collapse Grammar

/-- If every header has a text, and one that does not end in a line break, collapsing keeps the text,
up to carriage returns in front of line feeds and to line feeds at the end, one for each newline
without a line break at most. -/
theorem Tree.collapseUnchanged_keeps_text {t : Tree} {code : Block} {endMarker : Leaf}
    (h : t.IsProgram code endMarker) (hheaders : code.Headers Worded)
    (hregular : ∀ x ∈ code.tokens, x.Regular)
    (hempty : (code.tokens ++ [endMarker]).Pairwise fun a b =>
      a.IsEmptyNewline → b.trivia = "" ∧ b.value = "")
    (ranges : List LineRange) (wholeStatements : Bool) :
    ∃ u summary, t.collapseUnchanged ranges wholeStatements = ⟨u, .ok summary⟩ ∧
      (∃ k ≤ Leaf.empties code.tokens, Softened (t.source ++ feeds k) u.source) ∧
      (Leaf.empties code.tokens = 0 → (∀ a b, t.source ≠ a ++ "\r\n" ++ b) →
        u.source = t.source) := by
  obtain ⟨u, summary, hok, htokens⟩ := collapseUnchanged_program h ranges wholeStatements
  have hcoarsens := coarsens_program h hheaders (.ofRanges ranges) wholeStatements
  have hempties := empties_endMarker h.kind code.tokens
  obtain ⟨k, hk, hsoft⟩ := hcoarsens.text (regular_endMarker h.kind hregular)
    (emptyLast_of_pairwise hempty)
  rw [← render_endMarker h.kind, ← render_endMarker h.kind, ← tokens_program h, ← htokens] at hsoft
  have hbound : k ≤ Leaf.empties code.tokens := by omega
  refine ⟨u, summary, hok, ⟨k, hbound, hsoft⟩, fun hnone hcrlf => ?_⟩
  obtain rfl : k = 0 := by omega
  rw [feeds_zero, String.append_empty] at hsoft
  exact hsoft.eq_of_forall_ne hcrlf

/-- A block and a statement, with line breaks of two characters and none at the end. -/
def brokenLines : Block :=
  .cons (.compound [] none .ifStmt (.suite
      ([⟨.keyword, "", "if", 1⟩, ⟨.name, " ", "x", 1⟩, ⟨.op, "", ":", 1⟩].map .leaf)
      ⟨.newline, "", "\r\n", 1⟩ ⟨.indent, "", "", 2⟩
      (.cons (.line (.simple ([⟨.name, "  ", "a", 2⟩].map .leaf) ⟨.newline, "", "\r\n", 2⟩)) .nil)
      ⟨.dedent, "", "", 2⟩))
    (.cons (.line (.simple ([⟨.name, "", "b", 3⟩].map .leaf) ⟨.newline, "", "", 3⟩)) .nil)

theorem brokenLines_wf : brokenLines.Wf :=
  ⟨⟨by simp, by simp, by simp [blockForms], isHeader_leaves (by simp) (by decide), rfl, rfl,
    ⟨⟨isHeader_leaves (by simp) (by decide), rfl⟩, trivial⟩, rfl⟩,
    ⟨isHeader_leaves (by simp) (by decide), rfl⟩, trivial⟩

theorem brokenLines_headers : brokenLines.Headers Worded :=
  ⟨⟨⟨by decide +kernel, by decide +kernel⟩, trivial, trivial⟩, trivial, trivial⟩

theorem brokenLines_keeps_text :
    ∃ u summary, (Tree.ofProgram brokenLines ⟨.endMarker, "", "", 3⟩).collapseUnchanged [⟨1, 1⟩] true
        = ⟨u, .ok summary⟩ ∧
      ∃ k ≤ 1, Softened ((Tree.ofProgram brokenLines ⟨.endMarker, "", "", 3⟩).source ++ feeds k)
        u.source := by
  have hprogram : (Tree.ofProgram brokenLines ⟨.endMarker, "", "", 3⟩).IsProgram brokenLines
      ⟨.endMarker, "", "", 3⟩ := by
    refine Tree.ofProgram_isProgram brokenLines_wf rfl (by decide +kernel) ?_
    unfold Leaf.LinesAscend
    decide +kernel
  have hregular : ∀ x ∈ brokenLines.tokens, x.Regular := by
    unfold Leaf.Regular
    decide +kernel
  obtain ⟨u, summary, hok, htext, -⟩ := Tree.collapseUnchanged_keeps_text hprogram
    brokenLines_headers hregular (by decide +kernel) [⟨1, 1⟩] true
  exact ⟨u, summary, hok, htext⟩

def muteHeader : Block :=
  .cons (.compound [] none .tryStmt (.inlineThen
      ([⟨.keyword, "", "try", 1⟩, ⟨.op, "", ":", 1⟩].map .leaf)
      [.simple ([⟨.name, " ", "a", 1⟩].map .leaf) ⟨.newline, "", "\n", 1⟩]
      (.suite ([⟨.op, "", "", 2⟩].map .leaf) ⟨.newline, "", "\n", 2⟩ ⟨.indent, "", "", 3⟩
        (.cons (.line (.simple ([⟨.name, "  ", "b", 3⟩].map .leaf) ⟨.newline, "", "\n", 3⟩)) .nil)
        ⟨.dedent, "", "", 3⟩))) .nil

theorem muteHeader_wf : muteHeader.Wf :=
  ⟨⟨by simp, by simp, by simp [blockForms],
    ⟨isHeader_leaves (by simp) (by decide), by simp,
      List.forall_mem_singleton.mpr ⟨isHeader_leaves (by simp) (by decide), rfl⟩⟩,
    isHeader_leaves (by simp) (by decide), rfl, rfl,
    ⟨⟨isHeader_leaves (by simp) (by decide), rfl⟩, trivial⟩, rfl⟩, trivial⟩

theorem muteHeader_headers :
    muteHeader.Headers fun header => ¬Breaks (Leaf.render (Shape.tokensOfAll header)) :=
  ⟨⟨by decide +kernel, by decide +kernel, trivial, trivial⟩, trivial⟩

/-- A header without a text is cut together with the body in front of it. The line break that ends that
body is dropped then, since the newline of the header comes next. -/
theorem Tree.collapseUnchanged_loses_break :
    let t := Tree.ofProgram muteHeader ⟨.endMarker, "", "", 4⟩
    t.IsProgram muteHeader ⟨.endMarker, "", "", 4⟩ ∧
      (muteHeader.Headers fun header => ¬Breaks (Leaf.render (Shape.tokensOfAll header))) ∧
      (∀ x ∈ muteHeader.tokens, x.Regular ∧ ¬x.IsEmptyNewline) ∧
      t.source = "try: a\n\n  b\n" ∧
      ∀ wholeStatements, (t.collapseUnchanged [⟨3, 3⟩] wholeStatements).result.isOk = true ∧
        (t.collapseUnchanged [⟨3, 3⟩] wholeStatements).tree.source = "try: a\n  b\n" := by
  refine ⟨Tree.ofProgram_isProgram muteHeader_wf rfl (by decide +kernel) ?_, muteHeader_headers, ?_,
    by decide +kernel, by decide +kernel⟩
  · unfold Leaf.LinesAscend
    decide +kernel
  · unfold Leaf.Regular
    decide +kernel

end LineScope
