import LineScope.Proofs.Collapse.Overtaking
import LineScope.Proofs.Tree.OuterLeaves

/-!
# The furthest node that ends with a leaf

A node ends with a leaf if and only if last children lead from it down to the leaf, so the nodes
that do are those of one way up. The way up through last children stops at the first node that is
not the last child of its parent. Run as a loop it does stop, and no node further up ends with the
leaf: the way down from such a node would have to come through the node that is not a last child.
-/
namespace LineScope

namespace Tree

open Collapse
open StateTransition (eval mem_eval)

/-- One round of the way up: the parent of a node, if the node is the last child there. -/
def lastStep (t : Tree) (n : NodeId) : Option NodeId :=
  (t.parent? n).filter fun parent => (t.children parent).getLast? == some n

/-- The way up through last children as a loop. There is a result only if the loop stops. -/
def climbLast (t : Tree) (n : NodeId) : Part NodeId := eval t.lastStep n

variable {t : Tree} {n m c p leaf : NodeId}

theorem lastStep_eq_some_iff : t.lastStep c = some p ↔ t.IsLastChild c p := by
  rw [lastStep, Option.filter_eq_some_iff, beq_iff_eq, IsLastChild]

theorem lastLeaf?_of_leaf? (hleaf : (t.leaf? leaf).isSome) : t.lastLeaf? leaf = some leaf := by
  unfold leaf? at hleaf
  split at hleaf
  · next hpayload =>
    obtain ⟨steps, hsize⟩ : ∃ steps, t.size = steps + 1 :=
      Nat.exists_eq_add_one.mpr (Nat.zero_lt_of_lt (lt_size_of_payload? hpayload))
    rw [lastLeaf?, hsize, descend, hpayload]
  · cases hleaf

/-- What has a last child ends where the last child does. -/
theorem WellFormed.lastLeaf?_of_isLastChild (h : t.WellFormed) (hlast : t.IsLastChild c p) :
    t.lastLeaf? p = t.lastLeaf? c := by
  have hc := lt_size_of_parent? hlast.1
  have hp := h.parent_lt_size hlast.1
  obtain ⟨init, hinit⟩ := List.getLast?_eq_some_iff.mp hlast.2
  have htips : t.tips p = init.flatMap t.tips ++ t.tips c := by
    rw [h.tips_eq_flatMap hp (by simp [hinit]), hinit, List.flatMap_append, List.flatMap_singleton]
  have hend : (t.tips p).getLast? = (t.tips c).getLast? := by
    rw [htips, List.getLast?_append, List.getLast?_eq_some_getLast (h.tips_ne_nil hc),
      Option.some_or]
  rw [lastLeaf?, lastLeaf?, h.descend_eq hp takesEnd_getLast?, h.descend_eq hc takesEnd_getLast?,
    hend]

/-- A node has a leaf as its last one if and only if last children lead to it. -/
theorem WellFormed.lastLeaf?_eq_some_iff (h : t.WellFormed) (hleaf : (t.leaf? leaf).isSome) :
    t.lastLeaf? n = some leaf ↔ t.EndsWith n leaf := by
  refine ⟨h.endsWith_of_lastLeaf?, fun hends => ?_⟩
  induction hends with
  | refl => exact lastLeaf?_of_leaf? hleaf
  | tail _ hlast ih => rw [h.lastLeaf?_of_isLastChild hlast, ih]

/-- The nodes on the way up to a node that ends with a leaf end with it too. -/
theorem WellFormed.endsWith_of_between (h : t.WellFormed) (hends : t.EndsWith p leaf)
    (hm : t.Below leaf m) (hmp : t.Below m p) : t.EndsWith m leaf := by
  induction hends using Relation.ReflTransGen.head_induction_on with
  | refl =>
    rcases Relation.ReflTransGen.cases_head hm with rfl | ⟨q, hq, hqm⟩
    · exact .refl
    · exact absurd (hqm.trans hmp) (h.not_below_child hq)
  | @head n c hlast _ ih =>
    rcases Relation.ReflTransGen.cases_head hm with rfl | ⟨q, hq, hqm⟩
    · exact .refl
    · obtain rfl := isChild_rightUnique t hq hlast.1
      exact (ih hqm).head hlast

/-- What ends with a leaf is on the way up to the furthest node that does. -/
theorem WellFormed.furthest_of_endsWith (h : t.WellFormed) (hends : t.EndsWith m leaf) :
    t.EndsWith (furthestEndingWith t leaf) m := by
  -- Both are on the way up from the leaf, and past the furthest node the way does not go on.
  rcases hends.total_of_right_unique (isLastChild_rightUnique t)
    (endsWith_furthestEndingWith t leaf) with hup | hdown
  · exact hup
  · rcases Relation.ReflTransGen.cases_head hdown with heq | ⟨q, hlast, -⟩
    · exact heq ▸ .refl
    · exact absurd hlast (not_isLastChild_furthestEndingWith h leaf q)

/-- The loop stops where the bounded way up does. -/
theorem WellFormed.climbLast_eq (h : t.WellFormed) (leaf : NodeId) :
    t.climbLast leaf = .some (furthestEndingWith t leaf) := by
  refine Part.eq_some_iff.mpr (mem_eval.mpr ⟨?_, ?_⟩)
  · exact Relation.ReflTransGen.mono (fun _ _ hlast => lastStep_eq_some_iff.mpr hlast) _ _
      (endsWith_furthestEndingWith t leaf)
  · exact Option.eq_none_iff_forall_ne_some.mpr fun q hq =>
      not_isLastChild_furthestEndingWith h leaf q (lastStep_eq_some_iff.mp hq)

/-- The way up from a leaf through last children stops at a node that ends with the leaf. So does
every node on the way, and no node further up. -/
theorem WellFormed.furthestEndingWith_maximal (h : t.WellFormed) (hleaf : (t.leaf? leaf).isSome) :
    t.climbLast leaf = .some (furthestEndingWith t leaf) ∧
      t.Below leaf (furthestEndingWith t leaf) ∧
      t.lastLeaf? (furthestEndingWith t leaf) = some leaf ∧
      (∀ m, t.Below leaf m → t.Below m (furthestEndingWith t leaf) →
        t.lastLeaf? m = some leaf) ∧
      (∀ m, t.Below (furthestEndingWith t leaf) m → m ≠ furthestEndingWith t leaf →
        t.lastLeaf? m ≠ some leaf) := by
  have hends := endsWith_furthestEndingWith t leaf
  refine ⟨h.climbLast_eq leaf, hends.below, (h.lastLeaf?_eq_some_iff hleaf).mpr hends, ?_, ?_⟩
  · intro m hm hmtop
    exact (h.lastLeaf?_eq_some_iff hleaf).mpr (h.endsWith_of_between hends hm hmtop)
  · intro m hm hne hlast
    have hdown := h.furthest_of_endsWith ((h.lastLeaf?_eq_some_iff hleaf).mp hlast)
    rcases Relation.ReflTransGen.cases_tail hm with heq | ⟨c, htopc, hcm⟩
    · exact hne heq
    · exact h.not_below_child hcm (hdown.below.trans htopc)

end Tree

/-- A block whose only statement ends it, in front of the end of the file. -/
def nestedEnds : Tree :=
  .build .fileInput [.enter .suite, .enter .simpleStmt, .token ⟨.name, "", "a", 1⟩,
    .token ⟨.newline, "", "\n", 1⟩, .leave, .leave, .token ⟨.endMarker, "", "", 2⟩]

/-- The newline ends the statement and the block, but not the file. The name ends nothing above it,
though the statement around it is a last child. -/
theorem nestedEnds_furthest :
    nestedEnds.climbLast 4 = .some 1 ∧ nestedEnds.lastLeaf? 2 = some 4 ∧
      nestedEnds.lastLeaf? 0 ≠ some 4 ∧ nestedEnds.climbLast 3 = .some 3 ∧
      nestedEnds.lastLeaf? 1 ≠ some 3 := by
  have hwf : nestedEnds.WellFormed := Tree.build_wellFormed ..
  have hup {c p : NodeId} (hp : nestedEnds.parent? c = some p) : nestedEnds.Below c p := .single hp
  obtain ⟨hline, -, -, hpath, hpast⟩ :=
    @Tree.WellFormed.furthestEndingWith_maximal nestedEnds 4 hwf (by decide +kernel)
  obtain ⟨hname, -, -, -, hover⟩ :=
    @Tree.WellFormed.furthestEndingWith_maximal nestedEnds 3 hwf (by decide +kernel)
  have hblock : Collapse.furthestEndingWith nestedEnds 4 = 1 := by decide +kernel
  have halone : Collapse.furthestEndingWith nestedEnds 3 = 3 := by decide +kernel
  rw [hblock] at hline hpath hpast
  rw [halone] at hname hover
  refine ⟨hline, hpath 2 (hup (by decide +kernel)) (hup (by decide +kernel)),
    hpast 0 (hup (by decide +kernel)) (by decide), hname, hover 1 ?_ (by decide)⟩
  exact (hup (show nestedEnds.parent? 3 = some 2 by decide +kernel)).tail
    (show nestedEnds.parent? 2 = some 1 by decide +kernel)

end LineScope
