import LineScope.Proofs.Tree.Walks
import LineScope.Tree.Edit
import LineScope.Tree.Lemmas

/-!
# Detaching and attaching nodes

What the edits of a store do to it, first slot by slot, then to the forest it holds. A child can be
detached from its parent and becomes a tree of its own, and a new leaf can be put at any place among
the children of an interior node.
-/
namespace LineScope

def Payload.mapChildren (f : List NodeId → List NodeId) : Payload → Payload
  | .token leaf => .token leaf
  | .interior symbol children => .interior symbol (f children)

def Payload.children : Payload → List NodeId
  | .token _ => []
  | .interior _ children => children

theorem Tree.children_eq (t : Tree) (n : NodeId) :
    t.children n = ((t.payload? n).map Payload.children).getD [] := by
  unfold Tree.children
  rcases t.payload? n with _ | _ | _ <;> rfl

def Branch.single (n : NodeId) : Payload → Branch
  | .token token => .leaf n token
  | .interior symbol _ => .node n symbol []

theorem Branch.single_id (n : NodeId) (payload : Payload) : (single n payload).id = n := by
  cases payload <;> rfl

theorem Branch.single_ids (n : NodeId) (payload : Payload) : (single n payload).ids = [n] := by
  cases payload <;> rfl

theorem Tree.grows_single {t : Tree} {n : NodeId} {payload : Payload} {parent : Option NodeId}
    (hchildless : payload.children = []) (hpayload : t.payload? n = some payload)
    (hparent : t.parent? n = parent) : t.Grows parent (.single n payload) := by
  cases payload with
  | token leaf => exact grows_leaf.mpr ⟨hpayload, hparent⟩
  | interior symbol children =>
    refine grows_node.mpr ⟨⟨?_, hparent⟩, by simp⟩
    rw [hpayload, show children = [] from hchildless]
    rfl

theorem insertIdx_length_append (n : NodeId) (before after : List NodeId) :
    (before ++ after).insertIdx before.length n = before ++ n :: after := by
  induction before with
  | nil => simp
  | cons m before ih => simp [ih]

namespace Tree

theorem payload?_mapChildren (t : Tree) (n : NodeId) (f : List NodeId → List NodeId) (m : NodeId) :
    (t.mapChildren n f).payload? m =
      if n = m then (t.payload? m).map (Payload.mapChildren f) else t.payload? m := by
  simp only [payload?, mapChildren, Array.getElem?_modify]
  by_cases h : n = m
  · rcases t.slots[m]? with _ | ⟨_, _ | _⟩ <;> simp [h, Payload.mapChildren]
  · simp [h]

theorem payload?_mapLeaf (t : Tree) (n : NodeId) (f : Leaf → Leaf) (m : NodeId) :
    (t.mapLeaf n f).payload? m =
      if n = m then (t.leaf? m).elim (t.payload? m) (fun leaf => some (.token (f leaf)))
      else t.payload? m := by
  simp only [payload?, leaf?, mapLeaf, Array.getElem?_modify]
  by_cases h : n = m
  · rcases t.slots[m]? with _ | ⟨_, _ | _⟩ <;> simp [h]
  · simp [h]

theorem Linked.of_eq {t u : Tree} (h : t.Linked) (hchildren : ∀ p, u.children p = t.children p)
    (hparent : ∀ c, u.parent? c = t.parent? c) : u.Linked :=
  ⟨fun {p c} => by rw [hchildren, hparent]; exact h.mem_children,
    fun p => hchildren p ▸ h.nodup_children p⟩

theorem Linked.remove? {t : Tree} (h : t.Linked) {n p : NodeId} {symbol : Symbol}
    {before after : List NodeId}
    (hp : t.payload? p = some (.interior symbol (before ++ n :: after))) :
    ∃ u, t.remove? n = some (before.length, u) ∧ u.Linked ∧ u.size = t.size ∧
      (∀ m, u.parent? m = if m = n then none else t.parent? m) ∧
      ∀ m, u.payload? m = if m = p then some (.interior symbol (before ++ after))
        else t.payload? m := by
  have hchildren : t.children p = before ++ n :: after := children_of_payload? hp
  have hnp : t.parent? n = some p := h.mem_children.mp (by simp [hchildren])
  have hnodup := h.nodup_children p
  rw [hchildren, List.nodup_middle, List.nodup_cons, List.mem_append, not_or] at hnodup
  obtain ⟨⟨hnb, hna⟩, hrest⟩ := hnodup
  have herase : (before ++ n :: after).eraseIdx before.length = before ++ after := by
    rw [List.eraseIdx_append_of_length_le (Nat.le_refl _), Nat.sub_self, List.eraseIdx_cons_zero]
  set u := (t.mapChildren p (·.eraseIdx before.length)).setParent n none with hu
  have hupar (m : NodeId) : u.parent? m = if m = n then none else t.parent? m := by
    rw [hu, parent?_setParent, parent?_mapChildren]
    by_cases hm : m = n
    · simp [hm]
    · simp [hm, Ne.symm hm]
  have hupay (m : NodeId) : u.payload? m = if m = p then
      some (.interior symbol (before ++ after)) else t.payload? m := by
    rw [hu, payload?_setParent, payload?_mapChildren]
    by_cases hm : p = m
    · subst hm
      simp [hp, Payload.mapChildren, herase]
    · simp [hm, Ne.symm hm]
  have huchildren (q : NodeId) : u.children q = if q = p then before ++ after else t.children q := by
    by_cases hq : q = p
    · simp [Tree.children, hupay, hq]
    · simp [Tree.children, hupay, hq]
  refine ⟨u, ?_, ⟨fun {q c} => ?_, fun q => ?_⟩, ?_, hupar, hupay⟩
  · simp [Tree.remove?, hnp, hchildren, idxOf?_append_cons hnb, hu]
  · have hold := h.mem_children (p := q) (c := c)
    rw [huchildren, hupar]
    by_cases hq : q = p
    · rw [hq, hchildren] at hold
      by_cases hc : c = n
      · simp [hq, hc, hnb, hna]
      · simpa [hq, hc] using hold
    · by_cases hc : c = n
      · rw [hc, hnp] at hold
        simpa [hq, hc, Ne.symm hq] using hold
      · simpa [hq, hc] using hold
  · rw [huchildren]
    split
    · exact hrest
    · exact h.nodup_children q
  · rw [hu, size_setParent, size_mapChildren]

theorem remove?_eq_some {t u : Tree} {n : NodeId} {index : Nat}
    (h : t.remove? n = some (index, u)) :
    ∃ p, t.parent? n = some p ∧ u = (t.mapChildren p (·.eraseIdx index)).setParent n none := by
  simp only [Tree.remove?, Option.bind_eq_bind, Option.bind_eq_some_iff, Option.pure_def,
    Option.some.injEq, Prod.mk.injEq] at h
  obtain ⟨p, hp, found, -, rfl, rfl⟩ := h
  exact ⟨p, hp, rfl⟩

theorem insertChild_eq_ok {t u : Tree} {p index c : NodeId} (h : t.insertChild p index c = .ok u) :
    c ≠ rootId ∧ t.parent? c = none ∧ c ∉ t.lineage p ∧
      (∃ symbol, t.payload? p = some (.interior symbol (t.children p))) ∧
      index ≤ (t.children p).length ∧
      u = (t.mapChildren p (·.insertIdx index c)).setParent c (some p) := by
  unfold Tree.insertChild at h
  split at h
  · cases h
  · next hroot =>
    split at h
    · cases h
    · next hparent =>
      split at h
      · cases h
      · next hline =>
        split at h
        · next symbol children hpayload =>
          split at h
          · next hindex =>
            have hchildren := children_of_payload? hpayload
            refine ⟨hroot, by simpa using hparent, hline, ⟨symbol, hchildren ▸ hpayload⟩,
              hchildren ▸ hindex, ?_⟩
            exact (Except.ok.inj h).symm
          · cases h
        · cases h

theorem mem_climb_lt {t : Tree} {bound : Nat} (h : ∀ c p, t.parent? c = some p → p < bound)
    {n : NodeId} (hn : n < bound) {steps : Nat} : ∀ m ∈ t.climb steps n, m < bound := by
  induction steps generalizing n with
  | zero => simp [Tree.climb]
  | succ k ih =>
    cases hp : t.parent? n with
    | none => simpa [Tree.climb, hp] using hn
    | some p => simpa [Tree.climb, hp] using ⟨hn, ih (h n p hp)⟩

/-- A new node below `p`, whose child list `place` extends. -/
def graft (t : Tree) (payload : Payload) (p : NodeId) (place : List NodeId → List NodeId) : Tree :=
  ((t.alloc payload).mapChildren p place).setParent t.size (some p)

section Graft

variable {t : Tree} {payload : Payload} {p : NodeId} {place : List NodeId → List NodeId}
  {symbol : Symbol} {before after : List NodeId}

theorem size_graft : (t.graft payload p place).size = t.size + 1 := by
  rw [graft, size_setParent, size_mapChildren, size_alloc]

theorem parent?_graft (m : NodeId) :
    (t.graft payload p place).parent? m = if m = t.size then some p else t.parent? m := by
  rw [graft, parent?_setParent, parent?_mapChildren, parent?_alloc, size_mapChildren, size_alloc]
  by_cases hm : m = t.size
  · simp [hm]
  · simp [hm, Ne.symm hm]

theorem payload?_graft (hp : t.payload? p = some (.interior symbol (before ++ after)))
    (hplace : place (before ++ after) = before ++ t.size :: after) (m : NodeId) :
    (t.graft payload p place).payload? m = if m = t.size then some payload
      else if m = p then some (.interior symbol (before ++ t.size :: after))
      else t.payload? m := by
  have hne : p ≠ t.size := Nat.ne_of_lt (lt_size_of_payload? hp)
  rw [graft, payload?_setParent, payload?_mapChildren, payload?_alloc]
  by_cases hm : m = t.size
  · simp [hm, hne]
  · by_cases hmp : p = m
    · subst hmp
      simp [hm, hp, Payload.mapChildren, hplace]
    · simp [hm, hmp, Ne.symm hmp]

theorem parent?_size (t : Tree) : t.parent? t.size = none := by
  cases hpar : t.parent? t.size with
  | none => rfl
  | some q => exact absurd (lt_size_of_parent? hpar) (Nat.lt_irrefl _)

theorem Linked.graft (h : t.Linked) (hchildless : payload.children = [])
    (hp : t.payload? p = some (.interior symbol (before ++ after)))
    (hplace : place (before ++ after) = before ++ t.size :: after) :
    (t.graft payload p place).Linked := by
  have hne : p ≠ t.size := Nat.ne_of_lt (lt_size_of_payload? hp)
  have hpc := children_of_payload? hp
  have hchildren (q : NodeId) : (t.graft payload p place).children q =
      if q = p then before ++ t.size :: after else t.children q := by
    simp only [Tree.children_eq, payload?_graft hp hplace]
    by_cases hq : q = t.size
    · have hnone : t.payload? q = none := by
        rw [payload?, Array.getElem?_eq_none (Nat.le_of_eq hq.symm)]
        rfl
      simp [hq, Ne.symm hne, hq ▸ hnone, hchildless]
    · by_cases hqp : q = p
      · simp [hqp, hne, Payload.children]
      · simp [hq, hqp]
  refine ⟨fun {q c} => ?_, fun q => ?_⟩
  · have hold := h.mem_children (p := q) (c := c)
    rw [hchildren, parent?_graft]
    by_cases hc : c = t.size
    · subst hc
      by_cases hq : q = p
      · simp [hq]
      · simp [hq, hold, parent?_size, Ne.symm hq]
    · by_cases hq : q = p
      · subst hq
        rw [hpc] at hold
        simp [hc, ← hold]
      · simp [hc, hq, hold]
  · rw [hchildren]
    by_cases hq : q = p
    · rw [if_pos hq, List.nodup_middle, List.nodup_cons]
      refine ⟨fun hmem => ?_, hpc ▸ h.nodup_children p⟩
      rw [← hpc, h.mem_children, parent?_size] at hmem
      simp at hmem
    · rw [if_neg hq]
      exact h.nodup_children q

/-- A new node can be put at any place among the children of an interior node. -/
theorem Linked.insertChild_alloc (h : t.Linked)
    (hp : t.payload? p = some (.interior symbol (before ++ after))) (hsize : 0 < t.size) :
    (t.alloc payload).insertChild p before.length t.size =
      .ok (t.graft payload p (·.insertIdx before.length t.size)) := by
  have hlt := lt_size_of_payload? hp
  have hparent : (t.alloc payload).parent? = t.parent? := funext (parent?_alloc t _)
  have hup : t.size ∉ (t.alloc payload).lineage p := by
    intro hmem
    refine absurd (mem_climb_lt (fun c q hq => ?_) hlt _ hmem) (Nat.lt_irrefl _)
    exact h.parent_lt_size (by rwa [hparent] at hq)
  have hpay : (t.alloc payload).payload? p = some (.interior symbol (before ++ after)) := by
    rw [payload?_alloc, if_neg (Nat.ne_of_lt hlt), hp]
  rw [Tree.insertChild, if_neg (show t.size ≠ rootId from Nat.ne_of_gt hsize), hparent,
    parent?_size, if_neg (by simp), if_neg hup, hpay]
  simp [Tree.graft]

end Graft

end Tree

def Leaf.bare (leaf : Leaf) : Leaf := { leaf with trivia := "" }

namespace Branch

def bare : Branch → Branch
  | .leaf id token => .leaf id token.bare
  | .node id symbol [] => .node id symbol []
  | .node id symbol (b :: rest) => .node id symbol (b.bare :: rest)

theorem bare_id (b : Branch) : b.bare.id = b.id := by
  cases b with
  | leaf id token => rfl
  | node id symbol parts => cases parts <;> rfl

theorem bare_ids (b : Branch) : b.bare.ids = b.ids := by
  induction b with
  | leaf id token => rfl
  | node id symbol parts ih =>
    cases parts with
    | nil => rfl
    | cons b rest => simp only [bare, ids, idsOfAll, ih b (by simp)]

theorem first_mem_ids (b : Branch) {first : NodeId} {leaf : Leaf}
    (h : b.leaves.head? = some (first, leaf)) : first ∈ b.ids :=
  b.leaves_map_fst_sublist.subset (List.mem_map_of_mem (List.mem_of_mem_head? h))

theorem bare_leaves {b : Branch} (hfull : b.shape.Full) {first : NodeId} {leaf : Leaf}
    {more : List (NodeId × Leaf)} (h : b.leaves = (first, leaf) :: more) :
    b.bare.leaves = (first, leaf.bare) :: more := by
  induction b generalizing more with
  | leaf id token =>
    simp only [leaves, List.cons.injEq, Prod.mk.injEq] at h
    simp [bare, leaves, h.1.1, h.1.2, ← h.2]
  | node id symbol parts ih =>
    obtain ⟨hne, hparts⟩ := full_of_mem hfull
    obtain ⟨b, rest, rfl⟩ := List.exists_cons_of_ne_nil hne
    have hb := hparts b (by simp)
    obtain ⟨x, xs, hx⟩ := List.exists_cons_of_ne_nil (leaves_ne_nil_of_full hb)
    simp only [leaves, leavesOfAll, hx, List.cons_append, List.cons.injEq] at h
    rw [h.1] at hx
    simp only [bare, leaves, leavesOfAll, ih b (by simp) hb hx, List.cons_append, h.2]

end Branch

namespace Tree

/-- A branch keeps its slots when its top moves below another node. -/
theorem Grows.reparent {t u : Tree} {parent parent' : Option NodeId} {b : Branch}
    (h : t.Grows parent b) (hnodup : b.ids.Nodup)
    (hpayload : ∀ n ∈ b.ids, u.payload? n = t.payload? n)
    (hparent : ∀ n ∈ b.ids, n ≠ b.id → u.parent? n = t.parent? n)
    (htop : u.parent? b.id = parent') : u.Grows parent' b := by
  cases b with
  | leaf id token =>
    exact grows_leaf.mpr ⟨(hpayload id (by simp [Branch.ids])).trans (grows_leaf.mp h).1, htop⟩
  | node id symbol parts =>
    rw [Branch.ids, List.nodup_cons] at hnodup
    refine grows_node.mpr
      ⟨⟨(hpayload id (by simp [Branch.ids])).trans h.payload?_node, htop⟩, fun b hb => ?_⟩
    have hin {n : NodeId} (hn : n ∈ b.ids) : n ∈ Branch.idsOfAll parts :=
      Branch.ids_subset_idsOfAll hb hn
    refine (h.part hb).congr (fun n hn => hpayload n (List.mem_cons_of_mem _ (hin hn)))
      fun n hn => hparent n (List.mem_cons_of_mem _ (hin hn)) ?_
    rintro rfl
    exact hnodup.1 (hin hn)

/-- The same for a branch whose first leaf loses its trivia on the way. -/
theorem Grows.bare {t u : Tree} {parent parent' : Option NodeId} {b : Branch} {first : NodeId}
    {leaf : Leaf} (h : t.Grows parent b) (hnodup : b.ids.Nodup) (hfull : b.shape.Full)
    (hfirst : b.leaves.head? = some (first, leaf))
    (hpayload : ∀ n ∈ b.ids, n ≠ first → u.payload? n = t.payload? n)
    (hleaf : u.payload? first = some (.token leaf.bare))
    (hparent : ∀ n ∈ b.ids, n ≠ b.id → u.parent? n = t.parent? n)
    (htop : u.parent? b.id = parent') : u.Grows parent' b.bare := by
  induction b generalizing parent parent' with
  | leaf id token =>
    simp only [Branch.leaves, List.head?_cons, Option.some.injEq, Prod.mk.injEq] at hfirst
    rw [hfirst.1, hfirst.2, Branch.bare]
    exact grows_leaf.mpr ⟨hleaf, hfirst.1 ▸ htop⟩
  | node id symbol parts ih =>
    obtain ⟨hne, hparts⟩ := Branch.full_of_mem hfull
    obtain ⟨b, rest, rfl⟩ := List.exists_cons_of_ne_nil hne
    rw [Branch.ids, Branch.idsOfAll, List.nodup_cons, List.nodup_append] at hnodup
    obtain ⟨hid, hbnodup, hrestnodup, hapart⟩ := hnodup
    obtain ⟨x, xs, hx⟩ :=
      List.exists_cons_of_ne_nil (Branch.leaves_ne_nil_of_full (hparts b (by simp)))
    have hbfirst : b.leaves.head? = some (first, leaf) := by
      rw [Branch.leaves, Branch.leavesOfAll, hx] at hfirst
      rw [hx]
      exact hfirst
    have hmem : first ∈ b.ids := b.first_mem_ids hbfirst
    have hinb {n : NodeId} (hn : n ∈ b.ids) : n ∈ (Branch.node id symbol (b :: rest)).ids := by
      simp [Branch.ids, Branch.idsOfAll, hn]
    have hinrest {n : NodeId} (hn : n ∈ Branch.idsOfAll rest) :
        n ∈ (Branch.node id symbol (b :: rest)).ids := by
      simp [Branch.ids, Branch.idsOfAll, hn]
    have hneid {n : NodeId} (hn : n ∈ b.ids ∨ n ∈ Branch.idsOfAll rest) : n ≠ id := by
      rintro rfl
      exact hid (List.mem_append.mpr hn)
    have hfid : id ≠ first := fun heq => hneid (.inl hmem) heq.symm
    rw [Branch.bare]
    refine grows_node.mpr ⟨⟨?_, htop⟩, ?_⟩
    · rw [hpayload id (by simp [Branch.ids]) hfid, h.payload?_node, List.map_cons, List.map_cons,
        Branch.bare_id]
    · intro c hc
      rcases List.mem_cons.mp hc with rfl | hc
      · refine ih b (by simp) (h.part (by simp)) hbnodup (hparts b (by simp)) hbfirst
          (fun n hn => hpayload n (hinb hn))
          (fun n hn _ => hparent n (hinb hn) (hneid (.inl hn))) ?_
        rw [hparent b.id (hinb b.id_mem_ids) (hneid (.inl b.id_mem_ids))]
        exact (h.part (by simp)).parent?
      · have hin {n : NodeId} (hn : n ∈ c.ids) : n ∈ Branch.idsOfAll rest :=
          Branch.ids_subset_idsOfAll hc hn
        refine (h.part (by simp [hc])).congr (fun n hn => hpayload n (hinrest (hin hn)) ?_)
          fun n hn => hparent n (hinrest (hin hn)) (hneid (.inr (hin hn)))
        rintro rfl
        exact hapart n hmem n (hin hn) rfl

section Edits

variable {t : Tree} {f : Frame} {above c : Context} {x head : Branch} {rest others : List Branch}

theorem Holds.lt_size {forest : List Branch} (h : t.Holds forest) {n : NodeId}
    (hn : n ∈ Branch.idsOfAll forest) : n < t.size := by
  rw [Branch.idsOfAll_eq_flatMap] at hn
  obtain ⟨b, hb, hn⟩ := List.mem_flatMap.mp hn
  exact (h.grows b hb).lt_size hn

theorem Holds.of_perm {forest forest' : List Branch} (h : t.Holds forest)
    (hperm : forest.Perm forest') : t.Holds forest' :=
  ⟨h.linked, fun b hb => h.grows b (hperm.symm.subset hb),
    (Branch.idsOfAll_perm hperm).nodup h.nodup⟩

theorem Holds.mapLeaf_bare (h : t.Holds (c.fill (head :: rest) ++ others))
    (hfull : head.shape.Full) {first : NodeId} {leaf : Leaf}
    (hfirst : head.leaves.head? = some (first, leaf)) :
    (t.mapLeaf first Leaf.bare).Holds (c.fill (head.bare :: rest) ++ others) := by
  obtain ⟨hlinked, ⟨hgrows, hsurrounds, hothers⟩, hnodup⟩ := holds_fill.mp h
  have hin : first ∈ head.ids := head.first_mem_ids hfirst
  have hpayload {n : NodeId} (hn : n ≠ first) :
      (t.mapLeaf first Leaf.bare).payload? n = t.payload? n := by
    rw [payload?_mapLeaf, if_neg (Ne.symm hn)]
  have hparent (n : NodeId) : (t.mapLeaf first Leaf.bare).parent? n = t.parent? n :=
    parent?_mapLeaf ..
  have hleaf : (t.mapLeaf first Leaf.bare).payload? first = some (.token leaf.bare) := by
    rw [payload?_mapLeaf, if_pos rfl,
      (hgrows head (by simp)).leaf?_of_mem (List.mem_of_mem_head? hfirst)]
    rfl
  have hids : Branch.idsOfAll (head.bare :: rest) = Branch.idsOfAll (head :: rest) := by
    rw [Branch.idsOfAll, Branch.idsOfAll, Branch.bare_ids]
  rw [Branch.idsOfAll, List.append_assoc, List.nodup_append] at hnodup
  obtain ⟨hhead, -, hapart⟩ := hnodup
  have hne {n : NodeId} (hn : n ∈ Branch.idsOfAll rest ++ (c.ids ++ Branch.idsOfAll others)) :
      n ≠ first := fun heq => hapart first hin n hn heq.symm
  refine holds_fill.mpr ⟨hlinked.of_eq (children_mapLeaf t _ _) hparent, ⟨?_, ?_, ?_⟩, ?_⟩
  · intro b hb
    rcases List.mem_cons.mp hb with rfl | hb
    · refine (hgrows head (by simp)).bare hhead hfull hfirst (fun n _ => hpayload) hleaf
        (fun n _ _ => hparent n) ?_
      rw [hparent]
      exact (hgrows head (by simp)).parent?
    · refine (hgrows b (by simp [hb])).congr (fun n hn => hpayload (hne ?_)) fun n _ => hparent n
      exact List.mem_append_left _ (Branch.ids_subset_idsOfAll hb hn)
  · rw [List.map_cons, Branch.bare_id, ← List.map_cons]
    exact hsurrounds.congr (fun n hn => hpayload (hne (by simp [hn]))) fun n _ => hparent n
  · intro b hb
    refine (hothers b hb).congr (fun n hn => hpayload (hne ?_)) fun n _ => hparent n
    simp [Branch.ids_subset_idsOfAll hb hn]
  · rw [hids]
    exact h.fill_nodup

theorem Holds.remove? (h : t.Holds (Context.fill (f :: above) [x] ++ others)) :
    ∃ u, t.remove? x.id = some (f.before.length, u) ∧ u.size = t.size ∧
      u.Holds (Context.fill (f :: above) [] ++ (x :: others)) ∧
      ∀ n, n ≠ x.id → u.parent? n = t.parent? n := by
  obtain ⟨hlinked, ⟨hgrows, hsurrounds, hothers⟩, hnodup⟩ := holds_fill.mp h
  have hx := hgrows x (by simp)
  have htop : t.payload? f.id = some (.interior f.symbol
      (f.before.map Branch.id ++ x.id :: f.after.map Branch.id)) := by
    simpa using hsurrounds.1.1
  obtain ⟨u, hremove, hulinked, hsize, hupar, hupay⟩ := hlinked.remove? htop
  obtain ⟨hxnodup, hout, hapart⟩ := List.nodup_append.mp hnodup
  simp only [Branch.idsOfAll, List.append_nil] at hxnodup hapart
  have hparent {n : NodeId} (hn : n ≠ x.id) : u.parent? n = t.parent? n := by
    rw [hupar, if_neg hn]
  have hpayload {n : NodeId} (hn : n ≠ f.id) : u.payload? n = t.payload? n := by
    rw [hupay, if_neg hn]
  have hnex {n : NodeId} (hn : n ∈ Context.ids (f :: above) ++ Branch.idsOfAll others) :
      n ≠ x.id := fun heq => hapart x.id x.id_mem_ids n hn heq.symm
  have hfx : f.id ∉ x.ids := fun hmem => hapart f.id hmem f.id (by simp [Context.ids]) rfl
  refine ⟨u, by simpa using hremove, hsize, ?_, fun n => hparent⟩
  refine holds_fill.mpr ⟨hulinked, ⟨by simp, ?_, ?_⟩, ?_⟩
  · refine hsurrounds.regap (List.nodup_append.mp hout).1 ?_ (fun n _ => hpayload)
      fun n hn => hparent (hnex (List.mem_append_left _ hn))
    simp [hupay]
  · intro b hb
    rcases List.mem_cons.mp hb with rfl | hb
    · refine hx.reparent hxnodup (fun n hn => hpayload ?_) (fun n _ => hparent) (by simp [hupar])
      rintro rfl
      exact hfx hn
    · have hin {n : NodeId} (hn : n ∈ b.ids) : n ∈ Branch.idsOfAll others :=
        Branch.ids_subset_idsOfAll hb hn
      refine (hothers b hb).congr (fun n hn => hpayload ?_)
        fun n hn => hparent (hnex (List.mem_append_right _ (hin hn)))
      rintro rfl
      exact (List.nodup_append.mp hout).2.2 f.id (by simp [Context.ids]) f.id (hin hn) rfl
  · refine List.Perm.nodup ?_ hnodup
    simp only [Branch.idsOfAll, List.append_nil, List.nil_append]
    rw [← List.append_assoc, ← List.append_assoc]
    exact List.perm_append_comm.append_right _

theorem Holds.graft (h : t.Holds (Context.fill (f :: above) [] ++ others)) {payload : Payload}
    (hchildless : payload.children = []) {place : List NodeId → List NodeId}
    (hplace : place (f.before.map Branch.id ++ f.after.map Branch.id) =
      f.before.map Branch.id ++ t.size :: f.after.map Branch.id) :
    (t.graft payload f.id place).Holds
      (Context.fill (f :: above) [.single t.size payload] ++ others) := by
  obtain ⟨hlinked, ⟨-, hsurrounds, hothers⟩, hnodup⟩ := holds_fill.mp h
  have htop : t.payload? f.id = some (.interior f.symbol
      (f.before.map Branch.id ++ f.after.map Branch.id)) := by
    simpa using hsurrounds.1.1
  have hparent {n : NodeId} (hn : n ≠ t.size) :
      (t.graft payload f.id place).parent? n = t.parent? n := by
    rw [parent?_graft, if_neg hn]
  have hpayload {n : NodeId} (hn : n ≠ t.size) (hnf : n ≠ f.id) :
      (t.graft payload f.id place).payload? n = t.payload? n := by
    rw [payload?_graft htop hplace, if_neg hn, if_neg hnf]
  have hne {n : NodeId} (hn : n ∈ Context.ids (f :: above) ++ Branch.idsOfAll others) :
      n ≠ t.size := by
    refine Nat.ne_of_lt (h.lt_size (Context.mem_idsOfAll_fill.mpr (.inr ?_)))
    exact List.mem_append.mp hn
  have hfsize : f.id ≠ t.size := hne (by simp [Context.ids])
  simp only [Branch.idsOfAll, List.nil_append] at hnodup
  refine holds_fill.mpr ⟨hlinked.graft hchildless htop hplace, ⟨?_, ?_, ?_⟩, ?_⟩
  · intro b hb
    rw [List.mem_singleton.mp hb]
    refine grows_single hchildless ?_ ?_
    · rw [payload?_graft htop hplace, if_pos rfl]
    · rw [parent?_graft, if_pos rfl]
      rfl
  · refine hsurrounds.regap (List.nodup_append.mp hnodup).1 ?_
      (fun n hn => hpayload (hne (List.mem_append_left _ hn)))
      fun n hn => hparent (hne (List.mem_append_left _ hn))
    rw [payload?_graft htop hplace, if_neg hfsize, if_pos rfl]
    simp [Branch.single_id]
  · intro b hb
    have hin {n : NodeId} (hn : n ∈ b.ids) : n ∈ Branch.idsOfAll others :=
      Branch.ids_subset_idsOfAll hb hn
    refine (hothers b hb).congr
      (fun n hn => hpayload (hne (List.mem_append_right _ (hin hn))) ?_)
      fun n hn => hparent (hne (List.mem_append_right _ (hin hn)))
    rintro rfl
    exact (List.nodup_append.mp hnodup).2.2 f.id (by simp [Context.ids]) f.id (hin hn) rfl
  · simp only [Branch.idsOfAll, Branch.single_ids, List.append_nil, List.singleton_append,
      List.nodup_cons]
    exact ⟨fun hmem => hne hmem rfl, hnodup⟩

theorem Holds.insertChild_alloc (h : t.Holds (Context.fill (f :: above) [] ++ others))
    (token : Leaf) :
    ∃ u, (t.alloc (.token token)).insertChild f.id f.before.length t.size = .ok u ∧
      u.size = t.size + 1 ∧
      u.Holds (Context.fill (f :: above) [.leaf t.size token] ++ others) ∧
      ∀ n, n ≠ t.size → u.parent? n = t.parent? n := by
  have htop : t.payload? f.id = some (.interior f.symbol
      (f.before.map Branch.id ++ f.after.map Branch.id)) := by
    simpa using h.surrounds.1.1
  have hinsert := @Linked.insertChild_alloc t (.token token) _ _ _ _ h.linked htop
    (Nat.zero_lt_of_lt (lt_size_of_payload? htop))
  rw [List.length_map] at hinsert
  refine ⟨_, hinsert, size_graft, h.graft rfl ?_, fun n hn => by rw [parent?_graft, if_neg hn]⟩
  simpa using insertIdx_length_append t.size (f.before.map Branch.id) (f.after.map Branch.id)

end Edits

end Tree

end LineScope
