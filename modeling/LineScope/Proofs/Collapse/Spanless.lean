import LineScope.Proofs.Collapse.Failure

/-!
# Runs without a span

The span of a run needs a leaf at both of its ends. A run without one counts as clear of every kept
line, so it is for the collapse that follows to refuse it. Collapsing one node looks at both ends and
does refuse it. Collapsing a run only looks at its front: a run that has a first leaf but no last one
gives way to a verbatim leaf, whatever lines are to be kept.
-/
namespace LineScope

/-- A walk finds leaves only, so a run has a span if both walks find something. -/
theorem Tree.lineSpan?_eq_none_iff {t : Tree} {head last : NodeId} {rest : List NodeId}
    (hlast : (head :: rest).getLast? = some last) :
    t.lineSpan? (head :: rest) = none ↔ t.firstLeaf? head = none ∨ t.lastLeaf? last = none := by
  unfold lineSpan?
  rw [List.head?_cons, hlast]
  cases hfirst : t.firstLeaf? head with
  | none => simp [hfirst]
  | some first =>
    obtain ⟨opening, hopening⟩ := leaf?_of_descend hfirst
    cases hfinal : t.lastLeaf? last with
    | none => simp [hfinal]
    | some final =>
      obtain ⟨closing, hclosing⟩ := leaf?_of_descend hfinal
      simp [hfirst, hfinal, hopening, hclosing]

namespace Collapse

open LineScope.Tree

/-- Nodes that stand side by side, and such nodes led by the `async` in front of their parent. -/
inductive SideBySide (t : Tree) : NodeId → List NodeId → Prop
  | siblings {parent head : NodeId} {before rest after : List NodeId}
      (children : t.children parent = before ++ (head :: rest) ++ after) : SideBySide t head rest
  | led {owner key : NodeId} {before run after : List NodeId}
      (children : t.children owner = before ++ run ++ after)
      (key_before : t.prevSibling? owner = some key) (async : t.isToken key .async = true) :
      SideBySide t key run

variable {t : Tree} {head parent : NodeId} {rest : List NodeId}

/-- No other node of the run stands before its first node. -/
theorem SideBySide.exists_place (hrun : SideBySide t head rest) (h : t.WellFormed) :
    ∃ parent symbol before after, t.parent? head = some parent ∧
      t.payload? parent = some (.interior symbol (before ++ head :: after)) ∧
        ∀ n ∈ rest, n ∉ before := by
  have hplace {parent : NodeId} {before after : List NodeId}
      (hchildren : t.children parent = before ++ head :: after) (hrest : ∀ n ∈ rest, n ∉ before) :
      ∃ parent symbol before after, t.parent? head = some parent ∧
        t.payload? parent = some (.interior symbol (before ++ head :: after)) ∧
          ∀ n ∈ rest, n ∉ before := by
    have hmem : head ∈ t.children parent := by simp [hchildren]
    obtain ⟨symbol, hpayload⟩ := exists_interior_of_mem_children hmem
    exact ⟨parent, symbol, before, after, h.mem_children.mp hmem, hchildren ▸ hpayload, hrest⟩
  cases hrun with
  | @siblings parent _ before _ after children =>
    have hnodup := h.nodup_children parent
    rw [children, List.append_assoc, List.nodup_append] at hnodup
    apply hplace (by rw [children, List.append_assoc]; rfl)
    intro n hn hbefore
    exact hnodup.2.2 n hbefore n (by simp [hn]) rfl
  | @led owner _ _ _ _ children key_before async =>
    obtain ⟨⟨left, right⟩, hsiblings, hlast⟩ := Option.bind_eq_some_iff.mp key_before
    obtain ⟨grand, hgrand, hchildren⟩ := siblings?_eq_some hsiblings
    obtain ⟨init, rfl⟩ := List.getLast?_eq_some_iff.mp hlast
    apply hplace (by rw [hchildren, List.append_assoc]; rfl)
    intro n hn hinit
    have hup : t.parent? n = some grand := h.mem_children.mp (by simp [hchildren, hinit])
    have hown : t.parent? n = some owner := h.mem_children.mp (by simp [children, hn])
    obtain rfl : grand = owner := Option.some.inj (hup.symm.trans hown)
    exact h.acyclic grand (.single hgrand)

theorem collapseNode_spanless (hparent : t.parent? head = some parent)
    (hspan : t.lineSpan? [head] = none) : collapseNode t head = ⟨t, .error (.emptySpan head)⟩ := by
  have hends : t.firstLeaf? head = none ∨ t.lastLeaf? head = none :=
    (Tree.lineSpan?_eq_none_iff rfl).mp hspan
  rw [collapseNode, hparent]
  rcases hends with hfirst | hlast
  · simp [hfirst]
  · simp [hlast]

theorem collapseRun_no_first (hparent : t.parent? head = some parent)
    (hfirst : t.firstLeaf? head = none) :
    collapseRun t (head :: rest) = ⟨t, .error (.emptySpan head)⟩ := by
  simp [collapseRun, hparent, hfirst]

theorem SideBySide.collapseRun_ok (hrun : SideBySide t head rest) (h : t.WellFormed)
    {first : NodeId} (hfirst : t.firstLeaf? head = some first) :
    ∃ u, collapseRun t (head :: rest) = ⟨u, .ok true⟩ := by
  obtain ⟨parent, symbol, before, after, hparent, hpayload, hrest⟩ := hrun.exists_place h
  obtain ⟨leaf, hleaf⟩ := leaf?_of_descend hfirst
  obtain ⟨u, hu⟩ := replaceRun_ok h hpayload hrest hleaf
  exact ⟨u, by simp [collapseRun, hparent, hfirst, hu]⟩

end Collapse

open Collapse

/-- A run without a span is clear of all kept lines. If it is collapsed as one node, or if it has no
first leaf, that fails and changes nothing; otherwise its last leaf is missing and it is replaced. -/
theorem collapse_spanless {t : Tree} (h : t.WellFormed) {head : NodeId} {rest : List NodeId}
    (hrun : SideBySide t head rest) (hspan : t.lineSpan? (head :: rest) = none) (keep : LineSet) :
    misses t keep (head :: rest) = true ∧
      (rest = [] → collapseNode t head = ⟨t, .error (.emptySpan head)⟩) ∧
      (t.firstLeaf? head = none →
        collapseRun t (head :: rest) = ⟨t, .error (.emptySpan head)⟩) ∧
      (t.firstLeaf? head ≠ none →
        (∀ last, (head :: rest).getLast? = some last → t.lastLeaf? last = none) ∧
          ∃ u, collapseRun t (head :: rest) = ⟨u, .ok true⟩) := by
  obtain ⟨parent, -, -, -, hparent, -, -⟩ := hrun.exists_place h
  refine ⟨by rw [misses, hspan], ?_, collapseRun_no_first hparent, fun hfirst => ⟨?_, ?_⟩⟩
  · rintro rfl
    exact collapseNode_spanless hparent hspan
  · intro last hlast
    exact ((Tree.lineSpan?_eq_none_iff hlast).mp hspan).resolve_left hfirst
  · obtain ⟨first, hsome⟩ := Option.ne_none_iff_exists'.mp hfirst
    exact hrun.collapseRun_ok h hsome

def hollowHeader : Tree :=
  .build .fileInput [.enter .ifStmt, .token ⟨.keyword, "", "if", 1⟩, .token ⟨.name, " ", "x", 1⟩,
    .token ⟨.op, "", ":", 1⟩, .enter (.other "empty"), .leave, .enter .suite,
    .token ⟨.newline, "", "\n", 1⟩, .token ⟨.indent, "", "", 2⟩, .enter .simpleStmt,
    .token ⟨.name, "    ", "a", 2⟩, .token ⟨.newline, "", "\n", 2⟩, .leave,
    .token ⟨.dedent, "", "", 2⟩, .leave, .leave, .token ⟨.endMarker, "", "", 3⟩]

theorem hollowHeader_sideBySide : SideBySide hollowHeader 2 [3, 4, 5] :=
  @SideBySide.siblings _ 1 2 [] [3, 4, 5] [6] (by decide +kernel)

theorem hollowHeader_spanless : hollowHeader.WellFormed ∧
    hollowHeader.lineSpan? [2, 3, 4, 5] = none ∧
    collapseNode hollowHeader 5 = ⟨hollowHeader, .error (.emptySpan 5)⟩ ∧
    ∃ u, collapseRun hollowHeader [2, 3, 4, 5] = ⟨u, .ok true⟩ := by
  have hwf : hollowHeader.WellFormed := Tree.build_wellFormed ..
  have hspan : hollowHeader.lineSpan? [2, 3, 4, 5] = none := by decide +kernel
  have hempty : SideBySide hollowHeader 5 [] :=
    @SideBySide.siblings _ 1 5 [2, 3, 4] [] [6] (by decide +kernel)
  refine ⟨hwf, hspan, ?_, ?_⟩
  · exact (collapse_spanless hwf hempty (by decide +kernel) (.ofRanges [])).2.1 rfl
  · exact ((collapse_spanless hwf hollowHeader_sideBySide hspan (.ofRanges [])).2.2.2
      (by decide +kernel)).2

/-- Line 1 is to be kept, and yet the header on it is replaced where an error is due. -/
theorem hollowHeader_not_refused : hollowHeader.WellFormed ∧
    SideBySide hollowHeader 2 [3, 4, 5] ∧ hollowHeader.parent? 2 = some 1 ∧
    hollowHeader.lineSpan? [2, 3, 4, 5] = none ∧
    misses hollowHeader (.ofRanges [⟨1, 1⟩]) [2, 3, 4, 5] = true ∧
    (collapseRun hollowHeader [2, 3, 4, 5]).result.toOption = some true ∧
    (hollowHeader.collapseUnchanged [⟨1, 1⟩] false).tree.leaf? 14 =
      some ⟨.verbatim, "", "if x:", 1⟩ :=
  ⟨Tree.build_wellFormed .., hollowHeader_sideBySide, by decide +kernel, by decide +kernel,
    by decide +kernel, by decide +kernel, by decide +kernel⟩

end LineScope
