import LineScope.Proofs.Tree.Reachable
import Mathlib.Computability.StateTransition

/-!
# Walks as loops

The walk down keeps a stack of pending nodes, and the walk up follows parents. Run as loops that
count no steps, both stop on a well-formed tree: a branch that lies on top of the stack is taken off
it as a whole, and no node is above itself. So the bounds of `Tree.descendants` and
`Tree.isAttached` cut nothing off, and the two walks see the same tree from both sides.
-/
namespace LineScope

namespace Tree

open StateTransition (eval mem_eval reaches_eval)

/-- One round of the walk down, from the stack and the nodes seen: the last node of the stack is
taken off and seen, and its children go on in reverse. -/
def downStep (t : Tree) : List NodeId × List NodeId → Option (List NodeId × List NodeId)
  | (stack, seen) =>
    stack.getLast?.map fun n => (stack.dropLast ++ (t.children n).reverse, seen ++ [n])

/-- The walk down as a loop. There is a result only if the loop stops. -/
def walkDown (t : Tree) (stack seen : List NodeId) : Part (List NodeId) :=
  (eval t.downStep (stack, seen)).map Prod.snd

/-- The walk up as a loop, to a node without a parent. There is a result only if the loop stops. -/
def walkUp (t : Tree) (n : NodeId) : Part NodeId := eval t.parent? n

variable {t : Tree} {n m : NodeId} {parent : Option NodeId} {b : Branch} {stack seen : List NodeId}

theorem walkDown_nil : t.walkDown [] seen = .some seen := by
  have hstops : eval t.downStep ([], seen) = .some ([], seen) :=
    Part.eq_some_iff.mpr (mem_eval.mpr ⟨.refl, rfl⟩)
  rw [walkDown, hstops, Part.map_some]

theorem walkDown_concat :
    t.walkDown (stack ++ [n]) seen =
      t.walkDown (stack ++ (t.children n).reverse) (seen ++ [n]) := by
  have hround : t.downStep (stack ++ [n], seen) =
      some (stack ++ (t.children n).reverse, seen ++ [n]) := by
    simp [downStep]
  rw [walkDown, walkDown, reaches_eval (.single hround)]

/-- Branches in order on top of the stack are seen one after the other, each as a whole. -/
theorem walkDown_branches {bs : List Branch}
    (h : ∀ b ∈ bs, ∀ stack seen,
      t.walkDown (stack ++ [b.id]) seen = t.walkDown stack (seen ++ b.ids)) :
    t.walkDown (stack ++ (bs.map Branch.id).reverse) seen =
      t.walkDown stack (seen ++ Branch.idsOfAll bs) := by
  induction bs generalizing seen with
  | nil => simp [Branch.idsOfAll]
  | cons b rest ih =>
    obtain ⟨hb, hrest⟩ := List.forall_mem_cons.mp h
    rw [List.map_cons, List.reverse_cons, ← List.append_assoc, hb, ih hrest, Branch.idsOfAll,
      List.append_assoc]

/-- A branch on top of the stack is seen as a whole, and then the loop goes on below it. -/
theorem Grows.walkDown (h : t.Grows parent b) :
    t.walkDown (stack ++ [b.id]) seen = t.walkDown stack (seen ++ b.ids) := by
  induction b generalizing parent stack seen with
  | leaf id token =>
    rw [walkDown_concat, Branch.id, h.children_leaf, List.reverse_nil, List.append_nil, Branch.ids]
  | node id symbol parts ih =>
    rw [walkDown_concat, Branch.id, h.children_node,
      walkDown_branches fun b hb stack seen => ih b hb (h.part hb), Branch.ids, List.append_assoc,
      List.singleton_append]

/-- A node comes first, and then what lies below its children, one child after the other. -/
theorem Grows.descendants_eq_cons (h : t.Grows parent b) (hnodup : b.ids.Nodup) :
    t.descendants b.id = b.id :: (t.children b.id).flatMap t.descendants := by
  rw [h.descendants_eq hnodup]
  cases b with
  | leaf id token => simp [Branch.ids, Branch.id, h.children_leaf]
  | node id symbol parts =>
    rw [Branch.ids, List.nodup_cons] at hnodup
    rw [Branch.ids, Branch.id, h.children_node, List.flatMap_map, Branch.idsOfAll_eq_flatMap]
    congr 1
    refine List.flatMap_congr fun b hb => ?_
    exact ((h.part hb).descendants_eq (Branch.ids_nodup_of_mem hnodup.2 hb)).symm

theorem walkUp_eq_of_below (h : t.Below n m) : t.walkUp n = t.walkUp m := reaches_eval h

theorem walkUp_of_parent? (h : t.parent? n = none) : t.walkUp n = .some n :=
  Part.eq_some_iff.mpr (mem_eval.mpr ⟨.refl, h⟩)

theorem below_getLast?_climb {steps : Nat} {top : NodeId} (hm : m ∈ t.climb steps n)
    (htop : (t.climb steps n).getLast? = some top) : t.Below m top := by
  induction steps generalizing n with
  | zero => cases hm
  | succ steps ih =>
    have hbelow : t.Below n top := below_of_mem_climb (List.mem_of_getLast? htop)
    cases hp : t.parent? n with
    | none =>
      rw [climb, hp, List.mem_singleton] at hm
      exact hm ▸ hbelow
    | some p =>
      have hclimb : t.climb (steps + 1) n = n :: t.climb steps p := by rw [climb, hp]
      rw [hclimb] at hm htop
      rcases List.mem_cons.mp hm with rfl | hm
      · exact hbelow
      · rw [List.getLast?_cons_of_ne_nil (List.ne_nil_of_mem hm)] at htop
        exact ih hm htop

/-- The way up stops where the bounded one does: if that end had a parent, it would have been passed
before, and so be below the end and above it. -/
theorem WellFormed.walkUp_eq (h : t.WellFormed) (hn : n < t.size) :
    t.walkUp n = .ofOption (t.lineage n).getLast? := by
  have hne : t.lineage n ≠ [] := List.ne_nil_of_mem (h.mem_lineage hn .refl)
  obtain ⟨top, htop⟩ := Option.isSome_iff_exists.mp (List.getLast?_isSome.mpr hne)
  have hbelow : t.Below n top := below_of_mem_climb (List.mem_of_getLast? htop)
  have hend : t.parent? top = none := by
    by_contra hparent
    obtain ⟨p, hp⟩ := Option.ne_none_iff_exists'.mp hparent
    have hmem : p ∈ t.lineage n := h.mem_lineage hn (hbelow.tail hp)
    exact h.not_below_child hp (below_getLast?_climb hmem htop)
  rw [walkUp_eq_of_below hbelow, walkUp_of_parent? hend, htop, Part.coe_some]

/-- Both loops stop. Going down yields a node and then what its children yield, nothing twice, and
these are the nodes from which parents lead to it; going up ends at the root exactly for the nodes
that going down from the root yields. -/
theorem WellFormed.walks_agree (h : t.WellFormed) (hn : n < t.size) :
    t.walkDown [n] [] = .some (t.descendants n) ∧
      t.descendants n = n :: (t.children n).flatMap t.descendants ∧
      (t.descendants n).Nodup ∧
      (∀ m, m ∈ t.descendants n ↔ t.Below m n) ∧
      (t.walkUp n).map (· == rootId) = .some (t.isAttached n) ∧
      (t.isAttached n = true ↔ n ∈ t.descendants rootId) := by
  obtain ⟨b, hb⟩ := h.exists_branchOf ⟨n, hn⟩
  obtain ⟨root, hroot⟩ := h.exists_branchOf ⟨rootId, h.root_lt_size⟩
  have hdown : t.descendants n = b.ids := by
    rw [← hb.grows.descendants_eq hb.nodup, hb.id]
  have hall : t.descendants rootId = root.ids := by
    rw [← hroot.grows.descendants_eq hroot.nodup, hroot.id]
  refine ⟨?_, ?_, hdown ▸ hb.nodup, fun m => hdown ▸ hb.mem_ids m, ?_, ?_⟩
  · have hloop := @Grows.walkDown t _ b [] [] hb.grows
    rwa [hb.id, List.nil_append, List.nil_append, walkDown_nil, ← hdown] at hloop
  · have hcons := hb.grows.descendants_eq_cons hb.nodup
    rwa [hb.id] at hcons
  · have hne : t.lineage n ≠ [] := List.ne_nil_of_mem (h.mem_lineage hn .refl)
    rw [h.walkUp_eq hn, isAttached, List.getLast?_eq_some_getLast hne]
    rfl
  · rw [h.isAttached_iff_below, hall, hroot.mem_ids]

end Tree

/-- A statement that was taken out and put below a new block, which hangs nowhere. -/
def uprooted : Tree :=
  [.remove 1, .newNode .suite, .insert 3 0 1].foldl (fun t e => Edit.apply t e)
    (.build .fileInput [.enter .simpleStmt, .token ⟨.name, "", "a", 1⟩])

theorem uprooted_wellFormed : uprooted.WellFormed := by
  refine Tree.Reachable.wellFormed ?_
  simp only [uprooted, List.foldl_cons, List.foldl_nil]
  refine .edit (.edit (.edit (.build _ _) _ ?_) _ ?_) _ ?_
  all_goals decide +kernel

/-- The block comes before the statement below it, which has a lower number. -/
theorem uprooted_walks_agree :
    uprooted.walkDown [3] [] = .some [3, 1, 2] ∧
      (uprooted.walkUp 2).map (· == rootId) = .some false ∧ 2 ∉ uprooted.descendants rootId := by
  obtain ⟨hloop, -⟩ :=
    @Tree.WellFormed.walks_agree uprooted 3 uprooted_wellFormed (by decide +kernel)
  obtain ⟨-, -, -, -, htop, hattached⟩ :=
    @Tree.WellFormed.walks_agree uprooted 2 uprooted_wellFormed (by decide +kernel)
  have hdetached : uprooted.isAttached 2 = false := by decide +kernel
  rw [hdetached] at htop hattached
  have hbelow : uprooted.descendants 3 = [3, 1, 2] := by decide +kernel
  rw [hbelow] at hloop
  exact ⟨hloop, htop, fun hmem => Bool.false_ne_true (hattached.mpr hmem)⟩

end LineScope
