import LineScope.Tree.Shape
import Mathlib.Data.List.Nodup

/-!
# Trees by nesting, with their numbers

A `Branch` is a subtree of a store with the number of each of its nodes. `Branch.rows` lists what a
store must hold for the branch to be there, and `Branch.shape` forgets the numbers.
-/
namespace LineScope

inductive Branch where
  | leaf (id : NodeId) (token : Leaf)
  | node (id : NodeId) (symbol : Symbol) (parts : List Branch)

namespace Branch

/-- Induction on nesting: what holds of all the parts of a node holds of the node. -/
@[elab_as_elim, induction_eliminator]
theorem nesting {motive : Branch → Prop} (leaf : ∀ id token, motive (.leaf id token))
    (node : ∀ id symbol parts, (∀ b ∈ parts, motive b) → motive (.node id symbol parts))
    (b : Branch) : motive b := by
  refine @Branch.rec motive (fun parts => ∀ b ∈ parts, motive b) leaf node ?_ ?_ b
  · intro b hb
    simp at hb
  · intro b rest hb hrest c hc
    rcases List.mem_cons.mp hc with rfl | hc
    · exact hb
    · exact hrest c hc

def id : Branch → NodeId
  | .leaf id _ => id
  | .node id _ _ => id

mutual

def ids : Branch → List NodeId
  | .leaf id _ => [id]
  | .node id _ parts => id :: idsOfAll parts

def idsOfAll : List Branch → List NodeId
  | [] => []
  | b :: rest => b.ids ++ idsOfAll rest

end

mutual

def leaves : Branch → List (NodeId × Leaf)
  | .leaf id token => [(id, token)]
  | .node _ _ parts => leavesOfAll parts

def leavesOfAll : List Branch → List (NodeId × Leaf)
  | [] => []
  | b :: rest => b.leaves ++ leavesOfAll rest

end

mutual

def rows (parent : Option NodeId) : Branch → List (NodeId × Slot)
  | .leaf id token => [(id, ⟨parent, .token token⟩)]
  | .node id symbol parts =>
    (id, ⟨parent, .interior symbol (parts.map Branch.id)⟩) :: rowsOfAll (some id) parts

def rowsOfAll (parent : Option NodeId) : List Branch → List (NodeId × Slot)
  | [] => []
  | b :: rest => b.rows parent ++ rowsOfAll parent rest

end

mutual

def shape : Branch → Shape
  | .leaf _ token => .leaf token
  | .node _ symbol parts => .node symbol (shapesOfAll parts)

def shapesOfAll : List Branch → List Shape
  | [] => []
  | b :: rest => b.shape :: shapesOfAll rest

end

theorem idsOfAll_eq_flatMap (bs : List Branch) : idsOfAll bs = bs.flatMap ids := by
  induction bs with
  | nil => rfl
  | cons b rest ih => simp [idsOfAll, ih]

theorem leavesOfAll_eq_flatMap (bs : List Branch) : leavesOfAll bs = bs.flatMap leaves := by
  induction bs with
  | nil => rfl
  | cons b rest ih => simp [leavesOfAll, ih]

theorem rowsOfAll_eq_flatMap (parent : Option NodeId) (bs : List Branch) :
    rowsOfAll parent bs = bs.flatMap (rows parent) := by
  induction bs with
  | nil => rfl
  | cons b rest ih => simp [rowsOfAll, ih]

@[simp] theorem shapesOfAll_eq_map (bs : List Branch) : shapesOfAll bs = bs.map shape := by
  induction bs with
  | nil => rfl
  | cons b rest ih => simp [shapesOfAll, ih]

@[simp] theorem idsOfAll_append (bs cs : List Branch) :
    idsOfAll (bs ++ cs) = idsOfAll bs ++ idsOfAll cs := by
  simp [idsOfAll_eq_flatMap]

@[simp] theorem leavesOfAll_append (bs cs : List Branch) :
    leavesOfAll (bs ++ cs) = leavesOfAll bs ++ leavesOfAll cs := by
  simp [leavesOfAll_eq_flatMap]

@[simp] theorem rowsOfAll_append (parent : Option NodeId) (bs cs : List Branch) :
    rowsOfAll parent (bs ++ cs) = rowsOfAll parent bs ++ rowsOfAll parent cs := by
  simp [rowsOfAll_eq_flatMap]

theorem idsOfAll_perm {bs cs : List Branch} (h : bs.Perm cs) :
    (idsOfAll bs).Perm (idsOfAll cs) := by
  rw [idsOfAll_eq_flatMap, idsOfAll_eq_flatMap]
  exact h.flatMap_right ids

theorem id_mem_ids (b : Branch) : b.id ∈ b.ids := by
  cases b <;> simp [id, ids]

theorem ids_ne_nil (b : Branch) : b.ids ≠ [] := List.ne_nil_of_mem b.id_mem_ids

theorem ids_subset_idsOfAll {b : Branch} {bs : List Branch} (hb : b ∈ bs) :
    b.ids ⊆ idsOfAll bs := by
  intro n hn
  rw [idsOfAll_eq_flatMap]
  exact List.mem_flatMap.mpr ⟨b, hb, hn⟩

theorem ids_nodup_of_mem {b : Branch} {bs : List Branch} (h : (idsOfAll bs).Nodup) (hb : b ∈ bs) :
    b.ids.Nodup := by
  rw [idsOfAll_eq_flatMap, List.nodup_flatMap] at h
  exact h.1 b hb

theorem map_id_sublist_idsOfAll (bs : List Branch) : (bs.map id).Sublist (idsOfAll bs) := by
  induction bs with
  | nil => simp [idsOfAll]
  | cons b rest ih =>
    have hb : [b.id].Sublist b.ids := List.singleton_sublist.mpr b.id_mem_ids
    exact hb.append ih

theorem rows_map_fst (parent : Option NodeId) (b : Branch) :
    (b.rows parent).map Prod.fst = b.ids := by
  induction b generalizing parent with
  | leaf id token => rfl
  | node id symbol parts ih =>
    simp only [rows, ids, List.map_cons, rowsOfAll_eq_flatMap, idsOfAll_eq_flatMap,
      List.map_flatMap]
    rw [List.flatMap_congr fun b hb => ih b hb (some id)]

theorem leaves_map_fst_sublist (b : Branch) : (b.leaves.map Prod.fst).Sublist b.ids := by
  induction b with
  | leaf id token => simp [leaves, ids]
  | node id symbol parts ih =>
    simp only [leaves, ids]
    refine List.Sublist.cons _ ?_
    induction parts with
    | nil => simp [leavesOfAll, idsOfAll]
    | cons b rest ihrest =>
      simp only [leavesOfAll, idsOfAll, List.map_append]
      exact (ih b (by simp)).append (ihrest fun c hc => ih c (by simp [hc]))

theorem leavesOfAll_map_fst_sublist (bs : List Branch) :
    ((leavesOfAll bs).map Prod.fst).Sublist (idsOfAll bs) := by
  induction bs with
  | nil => exact List.Sublist.refl _
  | cons b rest ih =>
    rw [leavesOfAll, idsOfAll, List.map_append]
    exact b.leaves_map_fst_sublist.append ih

/-- The tokens of a branch do not depend on its numbers. -/
theorem tokens_shape (b : Branch) : b.shape.tokens = b.leaves.map Prod.snd := by
  induction b with
  | leaf id token => rfl
  | node id symbol parts ih =>
    simp only [shape, Shape.tokens, leaves]
    induction parts with
    | nil => rfl
    | cons b rest ihrest =>
      simp only [shapesOfAll, Shape.tokensOfAll, leavesOfAll, List.map_append, ih b (by simp)]
      rw [ihrest fun c hc => ih c (by simp [hc])]

def tokensOfAll (bs : List Branch) : List Leaf := (leavesOfAll bs).map Prod.snd

@[simp] theorem tokensOfAll_append (bs cs : List Branch) :
    tokensOfAll (bs ++ cs) = tokensOfAll bs ++ tokensOfAll cs := by
  simp [tokensOfAll]

@[simp] theorem tokensOfAll_cons (b : Branch) (bs : List Branch) :
    tokensOfAll (b :: bs) = b.shape.tokens ++ tokensOfAll bs := by
  simp [tokensOfAll, leavesOfAll, tokens_shape]

@[simp] theorem tokens_leaf (id : NodeId) (token : Leaf) :
    (Branch.leaf id token).shape.tokens = [token] := rfl

@[simp] theorem tokensOfAll_nil : tokensOfAll [] = [] := rfl

theorem tokensOfAll_singleton (b : Branch) : tokensOfAll [b] = b.shape.tokens := by
  simp

@[simp] theorem tokensOfAll_shapes (bs : List Branch) :
    Shape.tokensOfAll (bs.map shape) = tokensOfAll bs := by
  induction bs with
  | nil => rfl
  | cons b rest ih => simp [Shape.tokensOfAll, ih]

theorem exists_leaf {b : Branch} {token : Leaf} (h : b.shape = .leaf token) :
    ∃ id, b = .leaf id token := by
  cases b with
  | leaf id token' =>
    rw [shape, Shape.leaf.injEq] at h
    exact ⟨id, by rw [h]⟩
  | node id symbol parts => simp [shape] at h

theorem exists_node {b : Branch} {symbol : Symbol} {shapes : List Shape}
    (h : b.shape = .node symbol shapes) :
    ∃ id parts, b = .node id symbol parts ∧ parts.map shape = shapes := by
  cases b with
  | leaf id token => simp [shape] at h
  | node id symbol' parts =>
    rw [shape, shapesOfAll_eq_map, Shape.node.injEq] at h
    exact ⟨id, parts, by rw [h.1], h.2⟩

end Branch

end LineScope
