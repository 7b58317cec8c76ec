import LineScope.Proofs.Tree.Traversal

/-!
# The outermost leaves of a subtree

The walk to the first leaf takes the first child at every level, and the walk to the last leaf takes
the last one. Each ends at an outermost tip, a node without children. Such a node need not be a
leaf: an interior node without children may stand in front of all leaves or behind them, and then
the walk finds nothing although there are leaves.
-/
namespace LineScope

namespace Tree

def tips (t : Tree) (n : NodeId) : List NodeId := (t.descendants n).filter t.isTip

variable {t : Tree} {n : NodeId} {choose : List NodeId → Option NodeId}

theorem leaves_eq_filter_tips (t : Tree) (n : NodeId) :
    t.leaves n = (t.tips n).filter fun m => (t.leaf? m).isSome := by
  rw [leaves, tips, List.filter_filter]
  refine List.filter_congr fun m _ => ?_
  cases hleaf : t.leaf? m with
  | none => simp
  | some leaf => simp [isTip, children_eq_nil_of_leaf? hleaf]

namespace WellFormed

theorem descend_eq (h : t.WellFormed) (hn : n < t.size) (hchoose : TakesEnd choose) :
    t.descend choose t.size n = (choose (t.tips n)).filter fun m => (t.leaf? m).isSome := by
  obtain ⟨b, hb⟩ := h.exists_branchOf ⟨n, hn⟩
  have hdescend := hb.grows.descend_eq hchoose (hb.grows.length_ids_le_size hb.nodup)
  rwa [← hb.grows.descendants_eq hb.nodup, hb.id] at hdescend

theorem tips_ne_nil (h : t.WellFormed) (hn : n < t.size) : t.tips n ≠ [] := by
  obtain ⟨b, hb⟩ := h.exists_branchOf ⟨n, hn⟩
  have hne := hb.grows.filter_isTip_ne_nil
  rwa [← hb.grows.descendants_eq hb.nodup, hb.id] at hne

/-- The tips below a node with children are those of its children, one child after the other. -/
theorem tips_eq_flatMap (h : t.WellFormed) (hn : n < t.size) (hne : t.children n ≠ []) :
    t.tips n = (t.children n).flatMap t.tips := by
  obtain ⟨b, hb⟩ := h.exists_branchOf ⟨n, hn⟩
  have hcons := hb.grows.descendants_eq_cons hb.nodup
  rw [hb.id] at hcons
  have hinner : ¬ t.isTip n = true := by rwa [isTip_iff]
  rw [tips, hcons, List.filter_cons_of_neg hinner, List.filter_flatMap]
  rfl

theorem choose_leaves (h : t.WellFormed) (hn : n < t.size) (hchoose : TakesEnd choose)
    {leaf : NodeId} (hleaf : t.descend choose t.size n = some leaf) :
    choose (t.leaves n) = some leaf := by
  rw [leaves_eq_filter_tips]
  rw [h.descend_eq hn hchoose] at hleaf
  exact hchoose.filter _ _ _ hleaf

/-- A walk down finds nothing if and only if a node that is no leaf stands at its end. -/
theorem descend_eq_none_iff (h : t.WellFormed) (hn : n < t.size) (hchoose : TakesEnd choose) :
    t.descend choose t.size n = none ↔
      ∃ m, choose (t.tips n) = some m ∧ t.leaf? m = none := by
  obtain ⟨m, -, hend⟩ := hchoose.exists_mem _ (h.tips_ne_nil hn)
  rw [h.descend_eq hn hchoose, hend]
  simp

theorem exists_descend (h : t.WellFormed) (hn : n < t.size) (hchoose : TakesEnd choose)
    (hfull : ∀ m ∈ t.descendants n, t.children m = [] → t.leaf? m ≠ none) :
    ∃ leaf, t.descend choose t.size n = some leaf := by
  obtain ⟨m, hm, hend⟩ := hchoose.exists_mem _ (h.tips_ne_nil hn)
  obtain ⟨hmem, htip⟩ := List.mem_filter.mp hm
  have hleaf : t.leaf? m ≠ none := hfull m hmem (isTip_iff.mp htip)
  exact ⟨m, by simp [h.descend_eq hn hchoose, hend, Option.isSome_iff_ne_none, hleaf]⟩

/-- What the walks find are the first and the last of the leaves. They find nothing if and only if
the tip at their end is no leaf; where every tip is a leaf, each of them finds one. -/
theorem outer_leaves (h : t.WellFormed) (hn : n < t.size) :
    (∀ leaf, t.firstLeaf? n = some leaf → (t.leaves n).head? = some leaf) ∧
      (∀ leaf, t.lastLeaf? n = some leaf → (t.leaves n).getLast? = some leaf) ∧
      (t.firstLeaf? n = none ↔ ∃ m, (t.tips n).head? = some m ∧ t.leaf? m = none) ∧
      (t.lastLeaf? n = none ↔ ∃ m, (t.tips n).getLast? = some m ∧ t.leaf? m = none) ∧
      ((∀ m ∈ t.descendants n, t.children m = [] → t.leaf? m ≠ none) →
        t.leaves n ≠ [] ∧ t.firstLeaf? n = (t.leaves n).head? ∧
          t.lastLeaf? n = (t.leaves n).getLast?) := by
  refine ⟨fun leaf => h.choose_leaves hn takesEnd_head?,
    fun leaf => h.choose_leaves hn takesEnd_getLast?,
    h.descend_eq_none_iff hn takesEnd_head?, h.descend_eq_none_iff hn takesEnd_getLast?, ?_⟩
  intro hfull
  obtain ⟨first, hfirst⟩ := h.exists_descend hn takesEnd_head? hfull
  obtain ⟨last, hlast⟩ := h.exists_descend hn takesEnd_getLast? hfull
  have hhead := h.choose_leaves hn takesEnd_head? hfirst
  have hend := h.choose_leaves hn takesEnd_getLast? hlast
  exact ⟨List.ne_nil_of_mem (List.mem_of_mem_head? hhead), hfirst.trans hhead.symm,
    hlast.trans hend.symm⟩

end WellFormed

end Tree

/-- A statement with a node without children between its tokens, and another such node behind the
statement. -/
def hollowEnd : Tree :=
  .build .fileInput [.enter .simpleStmt, .token ⟨.name, "", "a", 1⟩, .enter (.other "empty"),
    .leave, .token ⟨.newline, "", "\n", 1⟩, .leave, .enter (.other "empty"), .leave]

/-- Within the statement both walks find their leaf; from the root only the first does. -/
theorem hollowEnd_outer_leaves :
    (hollowEnd.leaves 1).head? = some 2 ∧ (hollowEnd.leaves 1).getLast? = some 4 ∧
      (hollowEnd.leaves 0).head? = some 2 ∧ hollowEnd.lastLeaf? 0 = none ∧
      hollowEnd.leaves 2 ≠ [] := by
  have hwf : hollowEnd.WellFormed := Tree.build_wellFormed ..
  obtain ⟨hfirst, hlast, -⟩ := @Tree.WellFormed.outer_leaves hollowEnd 1 hwf (by decide +kernel)
  obtain ⟨hroot, -, -, hnone, -⟩ :=
    @Tree.WellFormed.outer_leaves hollowEnd 0 hwf (by decide +kernel)
  obtain ⟨-, -, -, -, hfull⟩ := @Tree.WellFormed.outer_leaves hollowEnd 2 hwf (by decide +kernel)
  refine ⟨hfirst 2 (by decide +kernel), hlast 4 (by decide +kernel), hroot 2 (by decide +kernel),
    hnone.mpr ⟨5, by decide +kernel⟩, (hfull (by decide +kernel)).1⟩

def hollowEnds : Tree :=
  .build .fileInput [.enter (.other "empty"), .leave, .token ⟨.name, "", "a", 1⟩,
    .enter (.other "empty"), .leave]

/-- There is a leaf below the root, but neither walk finds it. -/
theorem hollowEnds_leaf_missed : hollowEnds.WellFormed ∧ rootId < hollowEnds.size ∧
    hollowEnds.leaves rootId = [2] ∧ hollowEnds.firstLeaf? rootId = none ∧
    hollowEnds.lastLeaf? rootId = none :=
  ⟨Tree.build_wellFormed .., by decide +kernel, by decide +kernel, by decide +kernel,
    by decide +kernel⟩

end LineScope
