import LineScope.Proofs.Collapse.Folding
import LineScope.Proofs.Collapse.Preservation

/-!
# What every step keeps

A property of the store and of the branches in it that each step keeps holds after a collapse if it
held before, however the collapse ends. The nodes that a pass has still to visit are among those the
property speaks of, as a step may detach them.
-/
namespace LineScope

namespace Collapse

open LineScope.Tree

/-- A forest with the branch of the root, and nodes that are somewhere in it. -/
structure Standing (listed : List NodeId) (t : Tree) (forest : List Branch) (root : Branch) : Prop where
  holds : t.Holds forest
  full : ∀ b ∈ forest, b.shape.Full
  root_mem : root ∈ forest
  root_id : root.id = rootId
  listed_mem : ∀ n ∈ listed, n ∈ Branch.idsOfAll forest

/-- Kept by each step, whichever nodes of the root are listed. -/
structure Persists (keep : LineSet) (Inv : List NodeId → Tree → List Branch → Branch → Prop) :
    Prop where
  standing : ∀ {listed : List NodeId} {t : Tree} {forest : List Branch} {root : Branch},
    Inv listed t forest root → Standing listed t forest root
  stepped : ∀ {listed : List NodeId} {t u : Tree} {forest : List Branch} {root : Branch},
    Inv listed t forest root → Stepped keep t forest u → ∃ forest' root', Inv listed u forest' root'
  relist : ∀ {listed listed' : List NodeId} {t : Tree} {forest : List Branch} {root : Branch},
    Inv listed t forest root → (∀ n ∈ listed', n ∈ root.ids) → Inv listed' t forest root

namespace Persists

variable {keep : LineSet} {Inv : List NodeId → Tree → List Branch → Branch → Prop} {t : Tree}
  {forest : List Branch} {root : Branch} {listed : List NodeId}

/-- The steps may count on the labels that the listed nodes have. -/
theorem sweep (h : Persists keep Inv) {step : Tree → NodeId → Outcome Bool}
    {Label : Tree → NodeId → Prop}
    (hstep : ∀ {t : Tree} {forest : List Branch} {n : NodeId}, t.Holds forest →
      (∀ b ∈ forest, b.shape.Full) → n ∈ Branch.idsOfAll forest → Label t n →
      Stepped keep t forest (step t n).tree)
    (hlabel : ∀ {t : Tree} (n : NodeId) {m : NodeId}, Label t m → Label (step t n).tree m)
    (hinv : Inv listed t forest root) {ns : List NodeId} (hns : ∀ n ∈ ns, n ∈ listed)
    (hlabels : ∀ n ∈ ns, Label t n) (count : Nat) :
    ∃ forest' root', Inv listed (Collapse.sweep step t count ns).tree forest' root' := by
  induction ns generalizing t forest root count with
  | nil => exact ⟨forest, root, hinv⟩
  | cons n rest ih =>
    rw [List.forall_mem_cons] at hns hlabels
    have hstanding := h.standing hinv
    obtain ⟨forest', root', hinv'⟩ := h.stepped hinv
      (hstep hstanding.holds hstanding.full (hstanding.listed_mem n hns.1) hlabels.1)
    have hrest := fun m hm => hlabel n (hlabels.2 m hm)
    rw [Collapse.sweep]
    split
    · next u e hn =>
      rw [hn] at hinv'
      exact ⟨forest', root', hinv'⟩
    · next u done hn =>
      rw [hn] at hinv' hrest
      exact ih hinv' hns.2 hrest _

theorem statementPass (h : Persists keep Inv) (hinv : Inv listed t forest root) :
    ∃ forest' root', Inv (statements t) (Collapse.statementPass keep t).tree forest' root' := by
  have hstanding := h.standing hinv
  have hlisted : ∀ n ∈ statements t, n ∈ root.ids :=
    mem_ids_of_mem_statementsBelow (hstanding.holds.grows root hstanding.root_mem)
      hstanding.holds.linked (by simpa using hstanding.root_id ▸ root.id_mem_ids)
  refine h.sweep stepped_statement (fun {t} n {m} hm => ?_) (h.relist hinv hlisted) (fun n hn => hn)
    symbol?_of_mem_statementsBelow 0
  have hsame : SameLabels t (statement keep t n).tree :=
    (lasting_sameLabels t).statement (.refl t) n
  exact hm.imp hsame.symbol? hsame.symbol?

theorem linePass (h : Persists keep Inv) (hinv : Inv listed t forest root) :
    ∃ forest' root', Inv (newlines t) (Collapse.linePass keep t).tree forest' root' := by
  have hstanding := h.standing hinv
  have hgrows := hstanding.holds.grows root hstanding.root_mem
  have hlisted : ∀ n ∈ newlines t, n ∈ root.ids := by
    intro n hn
    have hleaves := (List.mem_filter.mp hn).1
    have hnodup := Branch.ids_nodup_of_mem hstanding.holds.nodup hstanding.root_mem
    rw [← hstanding.root_id, hgrows.leaves_eq hnodup] at hleaves
    exact root.leaves_map_fst_sublist.subset hleaves
  refine h.sweep stepped_logicalLine (fun {t} n {m} hm => ?_) (h.relist hinv hlisted)
    (fun n hn => hn) (fun n hn => (List.mem_filter.mp hn).2) 0
  exact ((lasting_sameLabels t).logicalLine (.refl t) n).isToken hm

theorem collapseUnchanged {ranges : List LineRange} (h : Persists (.ofRanges ranges) Inv)
    (hinv : Inv listed t forest root) (wholeStatements : Bool) :
    ∃ listed' forest' root',
      Inv listed' (t.collapseUnchanged ranges wholeStatements).tree forest' root' := by
  have hfirst : ∃ listed' forest' root', Inv listed'
      (if wholeStatements then Collapse.statementPass (.ofRanges ranges) t
        else ⟨t, .ok 0⟩ : Outcome Nat).tree forest' root' := by
    split
    · exact ⟨_, h.statementPass hinv⟩
    · exact ⟨listed, forest, root, hinv⟩
  obtain ⟨listed', forest', root', hinv'⟩ := hfirst
  rw [Tree.collapseUnchanged]
  split
  · next u e hpass =>
    rw [hpass] at hinv'
    exact ⟨listed', forest', root', hinv'⟩
  · next u count hpass =>
    rw [hpass] at hinv'
    obtain ⟨forest'', root'', hinv''⟩ := h.linePass hinv'
    split
    · next v e hlines =>
      rw [hlines] at hinv''
      exact ⟨_, forest'', root'', hinv''⟩
    · next v count' hlines =>
      rw [hlines] at hinv''
      exact ⟨_, forest'', root'', hinv''⟩

end Persists

end Collapse

end LineScope
