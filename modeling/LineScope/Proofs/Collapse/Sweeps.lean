import LineScope.Collapse.LogicalLines
import LineScope.Proofs.Collapse.Region

/-!
# Sweeps over a place

A sweep without errors, and what it makes of the run of branches in the gap of a context. Sweeps over
one place after the other compose, and the place may be seen through any context that fills to the
same branch.
-/
namespace LineScope

namespace Collapse

open LineScope.Tree

inductive Swept (step : Tree → NodeId → Outcome Bool) : Tree → List NodeId → Tree → Prop
  | nil (t : Tree) : Swept step t [] t
  | cons {t u v : Tree} {n : NodeId} {ns : List NodeId} {done : Bool}
      (head : step t n = ⟨u, .ok done⟩) (tail : Swept step u ns v) : Swept step t (n :: ns) v

variable {step : Tree → NodeId → Outcome Bool} {t u v : Tree} {ns ms : List NodeId}

theorem Swept.append (h : Swept step t ns u) (h' : Swept step u ms v) :
    Swept step t (ns ++ ms) v := by
  induction h with
  | nil t => exact h'
  | cons head tail ih => exact .cons head (ih h')

theorem Swept.sweep (h : Swept step t ns u) (count : Nat) :
    ∃ total, sweep step t count ns = ⟨u, .ok total⟩ := by
  induction h generalizing count with
  | nil t => exact ⟨count, rfl⟩
  | @cons t u v n ns done head tail ih =>
    obtain ⟨total, htotal⟩ := ih (if done then count + 1 else count)
    refine ⟨total, ?_⟩
    rw [Collapse.sweep, head]
    exact htotal

theorem sweep_idle (h : ∀ n ∈ ns, step t n = ⟨t, .ok false⟩) (count : Nat) :
    sweep step t count ns = ⟨t, .ok count⟩ := by
  induction ns with
  | nil => rfl
  | cons n ns ih =>
    rw [List.forall_mem_cons] at h
    rw [Collapse.sweep, h.1]
    exact ih h.2

/-- A sweep turns what fills a gap into a run with a property. The other trees stay, and there may
be new ones in front of them. -/
def Turns (step : Tree → NodeId → Outcome Bool) (t : Tree) (ns : List NodeId) (c : Context)
    (others : List Branch) (P : List Branch → Prop) : Prop :=
  ∃ u run others', Swept step t ns u ∧ u.Holds (c.fill run ++ others') ∧ others <:+ others' ∧ P run

variable {c d : Context} {others : List Branch} {P Q : List Branch → Prop}

theorem Turns.stay {run : List Branch} (h : t.Holds (c.fill run ++ others)) (hrun : P run) :
    Turns step t [] c others P := ⟨t, run, others, .nil t, h, List.suffix_rfl, hrun⟩

theorem Turns.once {n : NodeId} {done : Bool} {run loose : List Branch}
    (hstep : step t n = ⟨u, .ok done⟩) (h : u.Holds (c.fill run ++ (loose ++ others)))
    (hrun : P run) : Turns step t [n] c others P :=
  ⟨u, run, loose ++ others, .cons hstep (.nil u), h, List.suffix_append _ _, hrun⟩

theorem Turns.skip {n : NodeId} {done : Bool} (hstep : step t n = ⟨t, .ok done⟩)
    (h : Turns step t ns c others P) : Turns step t (n :: ns) c others P := by
  obtain ⟨u, run, others', hswept, hrest⟩ := h
  exact ⟨u, run, others', .cons hstep hswept, hrest⟩

/-- What comes next may depend on what the first sweep made. -/
theorem Turns.andThen (h : Turns step t ns c others P)
    (hnext : ∀ (u : Tree) (run others' : List Branch), u.Holds (c.fill run ++ others') → P run →
      Turns step u ms d others' Q) : Turns step t (ns ++ ms) d others Q := by
  obtain ⟨u, run, others', hswept, hholds, hsuffix, hrun⟩ := h
  obtain ⟨v, run', others'', hswept', hholds', hsuffix', hrun'⟩ := hnext u run others' hholds hrun
  exact ⟨v, run', others'', hswept.append hswept', hholds', hsuffix.trans hsuffix', hrun'⟩

theorem Turns.through (h : Turns step t ns c others P)
    (hsee : ∀ run, P run → ∃ run', c.fill run = d.fill run' ∧ Q run') :
    Turns step t ns d others Q := by
  obtain ⟨u, run, others', hswept, hholds, hsuffix, hrun⟩ := h
  obtain ⟨run', hfill, hrun'⟩ := hsee run hrun
  exact ⟨u, run', others', hswept, hfill ▸ hholds, hsuffix, hrun'⟩

theorem Turns.mono (h : Turns step t ns c others P) (himp : ∀ run, P run → Q run) :
    Turns step t ns c others Q := h.through fun run hrun => ⟨run, rfl, himp run hrun⟩

def newlineIds (leaves : List (NodeId × Leaf)) : List NodeId :=
  (leaves.filter fun x => x.2.kind = .newline).map Prod.fst

@[simp] theorem newlineIds_append (xs ys : List (NodeId × Leaf)) :
    newlineIds (xs ++ ys) = newlineIds xs ++ newlineIds ys := by
  simp [newlineIds]

theorem newlineIds_eq_nil {xs : List (NodeId × Leaf)} (h : ∀ x ∈ xs, x.2.kind ≠ .newline) :
    newlineIds xs = [] := by
  unfold newlineIds
  rw [List.map_eq_nil_iff, List.filter_eq_nil_iff]
  intro x hx
  simpa using h x hx

theorem newlineIds_cons {n : NodeId} {token : Leaf} (h : token.kind = .newline)
    (xs : List (NodeId × Leaf)) : newlineIds ((n, token) :: xs) = n :: newlineIds xs := by
  simp [newlineIds, h]

theorem newlineIds_cons_of_ne {n : NodeId} {token : Leaf} (h : token.kind ≠ .newline)
    (xs : List (NodeId × Leaf)) : newlineIds ((n, token) :: xs) = newlineIds xs := by
  simp [newlineIds, h]

theorem newlines_eq {root : Branch} {others : List Branch} (h : t.Holds (root :: others))
    (hid : root.id = rootId) : newlines t = newlineIds root.leaves := by
  have hgrows := h.grows root (by simp)
  have hnodup : root.ids.Nodup := by
    have hall := h.nodup
    rw [Branch.idsOfAll, List.nodup_append] at hall
    exact hall.1
  rw [newlines, ← hid, hgrows.leaves_eq hnodup, newlineIds, List.filter_map]
  congr 1
  refine List.filter_congr fun x hx => ?_
  have hleaf := hgrows.leaf?_of_mem (show (x.1, x.2) ∈ root.leaves from hx)
  simp [isToken, kind?, hleaf, beq_eq_decide]

end Collapse

section Attached

variable {t : Tree} {c : Context} {run others : List Branch}

theorem Tree.Holds.isAttached (h : t.Holds (c.fill run ++ others)) (hc : c.Rooted) {n : NodeId}
    (hn : n ∈ Branch.idsOfAll run) : t.isAttached n = true := by
  have hmem : n ∈ Branch.idsOfAll (c.fill run) :=
    (c.idsOfAll_fill run).mem_iff.mpr (List.mem_append_left _ hn)
  obtain ⟨root, hfill, hid⟩ := hc.exists_root run
  rw [hfill] at h hmem
  rw [h.isAttached_iff (List.mem_append_left _ (List.mem_singleton_self root)) hid]
  simpa [Branch.idsOfAll] using hmem

theorem Tree.Holds.not_isAttached (h : t.Holds (c.fill run ++ others)) (hc : c.Rooted) {n : NodeId}
    (hn : n ∈ Branch.idsOfAll others) : t.isAttached n = false := by
  obtain ⟨root, hfill, hid⟩ := hc.exists_root run
  rw [hfill] at h
  rw [Bool.eq_false_iff, ne_eq,
    h.isAttached_iff (List.mem_append_left _ (List.mem_singleton_self root)) hid]
  intro hroot
  have hnodup := h.nodup
  rw [Branch.idsOfAll_append, List.nodup_append] at hnodup
  exact hnodup.2.2 n (by simpa [Branch.idsOfAll] using hroot) n hn rfl

end Attached

end LineScope
