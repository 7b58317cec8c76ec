import LineScope.Proofs.Collapse.Record

/-!
# Replacing single nodes in place

Collapsing one node puts one leaf where the node stood in the child list above it. A run of such
steps leaves a store that is `Collapse.Patched`: child lists are as long as before, each place holds
the old child or a new leaf, and only interior nodes have gone.
-/
namespace LineScope

theorem forall₂_replace {α β : Type} {R : α → β → Prop} {x y : β} (hxy : ∀ a, R a x → R a y)
    {l : List α} {before after : List β} (h : List.Forall₂ R l (before ++ x :: after)) :
    List.Forall₂ R l (before ++ y :: after) := by
  induction before generalizing l with
  | nil =>
    cases h with
    | cons hx hafter => exact .cons (hxy _ hx) hafter
  | cons b before ih =>
    cases h with
    | cons hb hrest => exact .cons hb (ih hrest)

namespace Collapse

open LineScope.Tree

section Swapping

variable {t u : Tree} {n z : NodeId}

/-- A walk down from a leaf goes nowhere, so what is collapsed is an interior node. -/
theorem isSome_symbol?_of_leaves {first last : NodeId} (hfirst : t.firstLeaf? n = some first)
    (hlast : t.lastLeaf? n = some last) (hne : first ≠ last) : (t.symbol? n).isSome = true := by
  unfold firstLeaf? at hfirst
  unfold lastLeaf? at hlast
  cases hsize : t.size with
  | zero =>
    rw [hsize] at hfirst
    cases hfirst
  | succ k =>
    rw [hsize, descend] at hfirst hlast
    rcases hpayload : t.payload? n with _ | token | ⟨symbol, children⟩
    · simp [hpayload] at hfirst
    · simp only [hpayload, Option.some.injEq] at hfirst hlast
      exact absurd (hfirst.symm.trans hlast) hne
    · simp [symbol?, hpayload]

/-- One leaf takes the place of the node in the child list above it. -/
theorem children_of_collapseNode (h : t.WellFormed) (hok : collapseNode t z = ⟨u, .ok true⟩) :
    ∃ p before after, t.parent? z = some p ∧ t.children p = before ++ z :: after ∧
      ∀ q < t.size, u.children q = if q = p then before ++ t.size :: after else t.children q := by
  obtain ⟨p, first, last, hp, -, -, -, hrun⟩ := collapseNode_eq_ok hok
  have hmem := h.mem_children.mpr hp
  obtain ⟨symbol, hpayload⟩ := exists_interior_of_mem_children hmem
  obtain ⟨before, after, hsplit⟩ := List.append_of_mem hmem
  refine ⟨p, before, after, hp, hsplit, fun q hq => ?_⟩
  set bare := t.mapLeaf first Leaf.bare with hbare
  have hbarep : bare.payload? p = some (.interior symbol (before ++ z :: after)) := by
    have hinterior : t.leaf? p = none := by rw [Tree.leaf?, hpayload]
    rw [hbare, payload?_mapLeaf, hinterior, hpayload, Option.elim_none, ite_self, hsplit]
  obtain ⟨cut, hremove, -, hsize, -, hslots⟩ :=
    (h.mapLeaf (n := first) Leaf.bare).toLinked.remove? hbarep
  have hdetach : detachAll bare [z] = (some before.length, cut) := by
    rw [detachAll, hremove]
    rfl
  have hcut : cut.size = t.size := hsize.trans (size_mapLeaf ..)
  unfold replaceRun at hrun
  split at hrun
  · cases hrun
  · next leaf hleaf =>
    have hbare' : (t.mapLeaf first fun leaf => { leaf with trivia := "" }) = bare := rfl
    simp only [hbare', hdetach] at hrun
    split at hrun
    · cases hrun
    · next done hinsert =>
      obtain rfl : done = u := congrArg Outcome.tree hrun
      have hcutChildren (q : NodeId) (hq : q < t.size) :
          (cut.alloc (.token ⟨.verbatim, leaf.trivia,
            stripTerminator (bare.text [z]), leaf.line⟩)).children q =
            if q = p then before ++ after else t.children q := by
        have hne : q ≠ cut.size := Nat.ne_of_lt (hq.trans_eq hcut.symm)
        rw [children_eq, payload?_alloc, if_neg hne, hslots]
        by_cases hqp : q = p
        · rw [if_pos hqp, if_pos hqp]
          rfl
        · rw [if_neg hqp, if_neg hqp, ← children_eq, children_mapLeaf]
      rw [children_of_insertChild hinsert]
      by_cases hqp : q = p
      · subst hqp
        rw [if_pos rfl, if_pos rfl, hcutChildren q hq, if_pos rfl, hcut, insertIdx_length_append]
      · rw [if_neg hqp, if_neg hqp, hcutChildren q hq, if_neg hqp]

end Swapping

/-- `u` is `t` with nodes replaced by verbatim leaves, one at a time and each in its place. -/
structure Patched (t u : Tree) : Prop where
  wellFormed : u.WellFormed
  sheds : Sheds t u
  children : ∀ p < t.size, List.Forall₂ (fun old new => new = old ∨ t.size ≤ new)
    (t.children p) (u.children p)
  /-- No leaf has been replaced. -/
  interior : ∀ n, (t.parent? n).isSome = true → u.parent? n = none → (t.symbol? n).isSome = true

namespace Patched

variable {t u v : Tree} {n z : NodeId}

theorem refl (h : t.WellFormed) : Patched t t where
  wellFormed := h
  sheds := .refl t
  children p _ := List.forall₂_same.mpr fun _ _ => .inl rfl
  interior n hn hnone := by
    rw [hnone] at hn
    cases hn

theorem step (h : Patched t u) (hok : collapseNode u z = ⟨v, .ok true⟩) : Patched t v := by
  have hmoves := (moves_collapseNode u z).reduces h.wellFormed hok
  refine ⟨hmoves.wellFormed, h.sheds.trans hmoves.sheds, fun q hq => ?_, fun n hn hnone => ?_⟩
  · obtain ⟨p, before, after, hp, hsplit, hchildren⟩ := children_of_collapseNode h.wellFormed hok
    have hold := h.children q hq
    rw [hchildren q (hq.trans_le h.sheds.size_le)]
    split
    · next heq =>
      rw [heq, hsplit] at hold
      rw [heq]
      exact forall₂_replace (fun _ _ => .inr h.sheds.size_le) hold
    · exact hold
  · cases hu : u.parent? n with
    | none => exact h.interior n hn hu
    | some q =>
      obtain ⟨p, hp⟩ := Option.isSome_iff_exists.mp hn
      obtain ⟨_, first, last, -, hfirst, hlast, hne, hrun⟩ := collapseNode_eq_ok hok
      have hz : n ∈ [z] := by
        by_contra hnz
        rw [parent?_replaceRun hrun (lt_size_of_parent? hu) hnz, hu] at hnone
        cases hnone
      rw [List.mem_singleton.mp hz] at hp ⊢
      rw [← h.sheds.symbol? z (lt_size_of_parent? hp)]
      exact isSome_symbol?_of_leaves hfirst hlast hne

end Patched

end Collapse

end LineScope
