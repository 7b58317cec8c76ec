import LineScope.Proofs.Tree.Branch
import Mathlib.Data.Fintype.EquivFin
import Mathlib.Logic.Relation

/-!
# Stores as forests

`Tree.WellFormed` says what a store promises slot by slot; `Tree.Holds` says that some of its slots
are those of a list of branches. Every well-formed store holds the branch of its root.
-/
namespace LineScope

namespace Tree

structure Linked (t : Tree) : Prop where
  mem_children : ∀ {p c : NodeId}, c ∈ t.children p ↔ t.parent? c = some p
  nodup_children : ∀ p, (t.children p).Nodup

def IsChild (t : Tree) (child parent : NodeId) : Prop := t.parent? child = some parent

/-- Parent links and child lists agree, no node lies below itself, and the root is there, without a
parent. -/
structure WellFormed (t : Tree) : Prop extends t.Linked where
  acyclic : ∀ n, ¬ Relation.TransGen t.IsChild n n
  root_lt_size : rootId < t.size
  root_parent : t.parent? rootId = none

/-- The store has the slots of a branch that hangs below `parent`. -/
def Grows (t : Tree) (parent : Option NodeId) (b : Branch) : Prop :=
  ∀ row ∈ b.rows parent, t.slots[row.1]? = some row.2

/-- The store has each branch of a forest as a tree of its own. -/
structure Holds (t : Tree) (forest : List Branch) : Prop where
  linked : t.Linked
  grows : ∀ b ∈ forest, t.Grows none b
  nodup : (Branch.idsOfAll forest).Nodup

theorem slot_eq_some_iff {t : Tree} {n : NodeId} {parent : Option NodeId} {payload : Payload} :
    t.slots[n]? = some ⟨parent, payload⟩ ↔
      t.payload? n = some payload ∧ t.parent? n = parent := by
  cases h : t.slots[n]? with
  | none => simp [payload?, h]
  | some slot =>
    rcases slot with ⟨p, q⟩
    simp [payload?, parent?, h, and_comm]

theorem grows_leaf {t : Tree} {parent : Option NodeId} {id : NodeId} {token : Leaf} :
    t.Grows parent (.leaf id token) ↔
      t.payload? id = some (.token token) ∧ t.parent? id = parent := by
  simp [Grows, Branch.rows, slot_eq_some_iff]

theorem grows_node {t : Tree} {parent : Option NodeId} {id : NodeId} {symbol : Symbol}
    {parts : List Branch} :
    t.Grows parent (.node id symbol parts) ↔
      (t.payload? id = some (.interior symbol (parts.map Branch.id)) ∧ t.parent? id = parent) ∧
        ∀ b ∈ parts, t.Grows (some id) b := by
  simp only [Grows, Branch.rows, List.forall_mem_cons, slot_eq_some_iff,
    Branch.rowsOfAll_eq_flatMap, List.mem_flatMap]
  refine and_congr_right fun _ => ⟨fun h b hb row hrow => h row ⟨b, hb, hrow⟩, ?_⟩
  rintro h row ⟨b, hb, hrow⟩
  exact h b hb row hrow

theorem Grows.parent? {t : Tree} {parent : Option NodeId} {b : Branch} (h : t.Grows parent b) :
    t.parent? b.id = parent := by
  cases b with
  | leaf id token => exact (grows_leaf.mp h).2
  | node id symbol parts => exact (grows_node.mp h).1.2

/-- A store that agrees on the slots of a branch has the branch too. -/
theorem Grows.congr {t u : Tree} {parent : Option NodeId} {b : Branch} (h : t.Grows parent b)
    (hpayload : ∀ n ∈ b.ids, u.payload? n = t.payload? n)
    (hparent : ∀ n ∈ b.ids, u.parent? n = t.parent? n) : u.Grows parent b := by
  intro row hrow
  have hid : row.1 ∈ b.ids := by
    rw [← b.rows_map_fst parent]
    exact List.mem_map_of_mem hrow
  have hslot := slot_eq_some_iff.mp (h row hrow)
  exact slot_eq_some_iff.mpr
    ⟨(hpayload _ hid).trans hslot.1, (hparent _ hid).trans hslot.2⟩

/-- The slots below a number make one branch. -/
theorem Grows.unique {t : Tree} {parent parent' : Option NodeId} {b b' : Branch}
    (h : t.Grows parent b) (h' : t.Grows parent' b') (hid : b.id = b'.id) : b = b' := by
  induction b generalizing parent parent' b' with
  | leaf id token =>
    cases b' with
    | leaf id' token' =>
      obtain rfl : id = id' := hid
      have hpayload := (grows_leaf.mp h).1.symm.trans (grows_leaf.mp h').1
      rw [Payload.token.inj (Option.some.inj hpayload)]
    | node id' symbol' parts' =>
      obtain rfl : id = id' := hid
      cases (grows_leaf.mp h).1.symm.trans (grows_node.mp h').1.1
  | node id symbol parts ih =>
    cases b' with
    | leaf id' token' =>
      obtain rfl : id = id' := hid
      cases (grows_node.mp h).1.1.symm.trans (grows_leaf.mp h').1
    | node id' symbol' parts' =>
      obtain rfl : id = id' := hid
      obtain ⟨⟨hpayload, -⟩, hparts⟩ := grows_node.mp h
      obtain ⟨⟨hpayload', -⟩, hparts'⟩ := grows_node.mp h'
      obtain ⟨rfl, hids⟩ := Payload.interior.inj (Option.some.inj (hpayload.symm.trans hpayload'))
      have hlength : parts.length = parts'.length := by
        simpa only [List.length_map] using congrArg List.length hids
      congr 1
      refine List.ext_getElem hlength fun i hi hi' => ?_
      refine ih _ (List.getElem_mem hi) (hparts _ (List.getElem_mem hi))
        (hparts' _ (List.getElem_mem hi')) ?_
      have heq := List.getElem_of_eq hids (by simpa using hi)
      rwa [List.getElem_map, List.getElem_map] at heq

theorem lt_size_of_payload? {t : Tree} {n : NodeId} {payload : Payload}
    (h : t.payload? n = some payload) : n < t.size := by
  obtain ⟨slot, hslot, -⟩ := Option.map_eq_some_iff.mp h
  exact (Array.getElem?_eq_some_iff.mp hslot).1

theorem payload?_of_le {t : Tree} {n : NodeId} (h : t.size ≤ n) : t.payload? n = none := by
  rw [payload?, Array.getElem?_eq_none h, Option.map_none]

theorem lt_size_of_parent? {t : Tree} {n p : NodeId} (h : t.parent? n = some p) : n < t.size := by
  obtain ⟨slot, hslot, -⟩ := Option.bind_eq_some_iff.mp h
  exact (Array.getElem?_eq_some_iff.mp hslot).1

theorem exists_payload_of_lt {t : Tree} {n : NodeId} (h : n < t.size) :
    ∃ payload, t.payload? n = some payload := by
  cases hslot : t.slots[n]? with
  | none => exact absurd h (Nat.not_lt.mpr (Array.getElem?_eq_none_iff.mp hslot))
  | some slot => exact ⟨slot.payload, by simp [payload?, hslot]⟩

theorem children_of_payload? {t : Tree} {n : NodeId} {symbol : Symbol} {children : List NodeId}
    (h : t.payload? n = some (.interior symbol children)) : t.children n = children := by
  simp [Tree.children, h]

theorem exists_interior_of_mem_children {t : Tree} {p c : NodeId} (h : c ∈ t.children p) :
    ∃ symbol, t.payload? p = some (.interior symbol (t.children p)) := by
  unfold Tree.children at h ⊢
  split at h
  · next symbol children hp =>
    simp only [hp]
    exact ⟨symbol, rfl⟩
  · simp at h

theorem Linked.parent_lt_size {t : Tree} (h : t.Linked) {c p : NodeId}
    (hc : t.parent? c = some p) : p < t.size := by
  obtain ⟨symbol, hp⟩ := exists_interior_of_mem_children (h.mem_children.mpr hc)
  exact lt_size_of_payload? hp

abbrev Below (t : Tree) : NodeId → NodeId → Prop := Relation.ReflTransGen t.IsChild

theorem isChild_rightUnique (t : Tree) : Relator.RightUnique t.IsChild := by
  intro a b c hb hc
  unfold IsChild at hb hc
  exact Option.some.inj (hb.symm.trans hc)

theorem eq_of_below_of_parent? {t : Tree} {n m : NodeId} (hn : t.parent? n = none)
    (h : t.Below n m) : m = n := by
  rcases Relation.ReflTransGen.cases_head h with rfl | ⟨p, hp, -⟩
  · rfl
  · rw [IsChild, hn] at hp
    cases hp

theorem Linked.lt_size_of_below {t : Tree} (h : t.Linked) {n m : NodeId} (hn : n < t.size)
    (hm : t.Below n m) : m < t.size := by
  rcases Relation.ReflTransGen.cases_tail hm with rfl | ⟨p, -, hp⟩
  · exact hn
  · exact h.parent_lt_size hp

theorem lt_size_of_below_child {t : Tree} {n c p : NodeId} (hn : t.Below n c)
    (hc : t.parent? c = some p) : n < t.size := by
  rcases Relation.ReflTransGen.cases_head hn with rfl | ⟨q, hq, -⟩
  · exact lt_size_of_parent? hc
  · exact lt_size_of_parent? hq

theorem WellFormed.lt_size_of_below_root {t : Tree} (h : t.WellFormed) {n : NodeId}
    (hn : t.Below n rootId) : n < t.size := by
  rcases Relation.ReflTransGen.cases_head hn with rfl | ⟨p, hp, -⟩
  · exact h.root_lt_size
  · exact lt_size_of_parent? hp

/-- A node is never below a child of itself. -/
theorem WellFormed.not_below_child {t : Tree} (h : t.WellFormed) {c p : NodeId}
    (hc : t.parent? c = some p) : ¬ t.Below p c := by
  intro hbelow
  exact h.acyclic c (Relation.TransGen.head' (show t.IsChild c p from hc) hbelow)

/-- Two children of one node have nothing below them in common. -/
theorem WellFormed.eq_of_below {t : Tree} (h : t.WellFormed) {m c d p : NodeId}
    (hc : t.parent? c = some p) (hd : t.parent? d = some p) (hmc : t.Below m c)
    (hmd : t.Below m d) : c = d := by
  have hone {a b : NodeId} (ha : t.parent? a = some p) (hb : t.parent? b = some p)
      (hab : t.Below a b) : a = b := by
    rcases Relation.ReflTransGen.cases_head hab with rfl | ⟨q, hq, hqb⟩
    · rfl
    · have hqp : q = p := isChild_rightUnique t hq ha
      exact absurd (hqp ▸ hqb) (h.not_below_child hb)
  rcases hmc.total_of_right_unique (isChild_rightUnique t) hmd with hcd | hdc
  · exact hone hc hd hcd
  · exact (hone hd hc hdc).symm

/-- Without cycles there is no infinite way down through finitely many slots. -/
theorem WellFormed.wellFounded {t : Tree} (h : t.WellFormed) :
    WellFounded (fun c p : Fin t.size => t.IsChild c p) := by
  let up : Fin t.size → Fin t.size → Prop := fun c p => Relation.TransGen t.IsChild c p
  have : IsTrans _ up := ⟨fun _ _ _ hab hbc => hab.trans hbc⟩
  have : Std.Irrefl up := ⟨fun n hn => h.acyclic n hn⟩
  exact Subrelation.wf (fun hcp => Relation.TransGen.single hcp)
    (Finite.wellFounded_of_trans_of_irrefl up)

structure BranchOf (t : Tree) (n : NodeId) (b : Branch) : Prop where
  id : b.id = n
  grows : t.Grows (t.parent? n) b
  nodup : b.ids.Nodup
  mem_ids : ∀ m, m ∈ b.ids ↔ t.Below m n

theorem exists_branches {t : Tree} {ns : List NodeId} (h : ∀ n ∈ ns, ∃ b, t.BranchOf n b) :
    ∃ bs : List Branch, bs.map Branch.id = ns ∧ ∀ b ∈ bs, t.BranchOf b.id b := by
  induction ns with
  | nil => exact ⟨[], rfl, by simp⟩
  | cons n ns ih =>
    obtain ⟨b, hb⟩ := h n (by simp)
    obtain ⟨bs, hids, hbs⟩ := ih fun m hm => h m (by simp [hm])
    refine ⟨b :: bs, by simp [hb.id, hids], ?_⟩
    rintro c (_ | ⟨_, hc⟩)
    · exact hb.id ▸ hb
    · exact hbs c hc

/-- Branches whose tops have nothing below them in common share no number. -/
theorem nodup_idsOfAll {t : Tree} {bs : List Branch} (hbs : ∀ b ∈ bs, t.BranchOf b.id b)
    (hids : (bs.map Branch.id).Nodup)
    (hapart : ∀ b ∈ bs, ∀ c ∈ bs, ∀ m, t.Below m b.id → t.Below m c.id → b.id = c.id) :
    (Branch.idsOfAll bs).Nodup := by
  rw [Branch.idsOfAll_eq_flatMap, List.nodup_flatMap]
  refine ⟨fun b hb => (hbs b hb).nodup, ?_⟩
  have hpair := List.pairwise_map.mp hids
  refine hpair.imp_of_mem fun {b c} hb hc hne m hmb hmc => hne ?_
  exact hapart b hb c hc m (((hbs b hb).mem_ids m).mp hmb) (((hbs c hc).mem_ids m).mp hmc)

theorem WellFormed.exists_branchOf {t : Tree} (h : t.WellFormed) (n : Fin t.size) :
    ∃ b, t.BranchOf n b := by
  refine h.wellFounded.induction (C := fun n => ∃ b, t.BranchOf n b) n ?_
  intro n ih
  obtain ⟨payload, hpayload⟩ := exists_payload_of_lt n.isLt
  cases payload with
  | token token =>
    refine ⟨.leaf n token, rfl, grows_leaf.mpr ⟨hpayload, rfl⟩, by simp [Branch.ids], ?_⟩
    intro m
    simp only [Branch.ids, List.mem_singleton]
    constructor
    · rintro rfl
      exact Relation.ReflTransGen.refl
    · intro hm
      rcases Relation.ReflTransGen.cases_tail hm with heq | ⟨c, -, hc⟩
      · exact heq.symm
      · have hmem := h.mem_children.mpr hc
        simp [Tree.children, hpayload] at hmem
  | interior symbol children =>
    have hchild {c : NodeId} : c ∈ children ↔ t.parent? c = some n.val := by
      rw [← h.mem_children, children_of_payload? hpayload]
    obtain ⟨bs, hids, hbs⟩ := @exists_branches t children fun c hc =>
      ih ⟨c, lt_size_of_parent? (hchild.mp hc)⟩ (hchild.mp hc)
    have hparent {b : Branch} (hb : b ∈ bs) : t.parent? b.id = some n.val :=
      hchild.mp (hids ▸ List.mem_map_of_mem hb)
    have hmem (m : NodeId) : m ∈ Branch.idsOfAll bs ↔ ∃ b ∈ bs, t.Below m b.id := by
      rw [Branch.idsOfAll_eq_flatMap, List.mem_flatMap]
      exact exists_congr fun b => and_congr_right fun hb => (hbs b hb).mem_ids m
    refine ⟨.node n symbol bs, rfl, ?_, ?_, ?_⟩
    · refine grows_node.mpr ⟨⟨hids ▸ hpayload, rfl⟩, fun b hb => ?_⟩
      exact hparent hb ▸ (hbs b hb).grows
    · rw [Branch.ids, List.nodup_cons]
      constructor
      · intro hn
        obtain ⟨b, hb, hbelow⟩ := (hmem n).mp hn
        exact h.not_below_child (hparent hb) hbelow
      · refine nodup_idsOfAll hbs ?_ fun b hb c hc m => h.eq_of_below (hparent hb) (hparent hc)
        rw [hids, ← children_of_payload? hpayload]
        exact h.nodup_children n
    · intro m
      rw [Branch.ids, List.mem_cons, hmem]
      constructor
      · rintro (rfl | ⟨b, hb, hbelow⟩)
        · exact Relation.ReflTransGen.refl
        · exact hbelow.tail (hparent hb)
      · intro hm
        rcases Relation.ReflTransGen.cases_tail hm with heq | ⟨c, hmc, hc⟩
        · exact .inl heq.symm
        · obtain ⟨b, hb, rfl⟩ := List.mem_map.mp (hids ▸ hchild.mpr hc)
          exact .inr ⟨b, hb, hmc⟩

/-- A well-formed store holds the branch of its root. -/
theorem WellFormed.exists_holds {t : Tree} (h : t.WellFormed) :
    ∃ root, root.id = rootId ∧ t.Holds [root] := by
  obtain ⟨root, hroot⟩ := h.exists_branchOf ⟨rootId, h.root_lt_size⟩
  refine ⟨root, hroot.id, h.toLinked, ?_, ?_⟩
  · have hgrows := hroot.grows
    rw [h.root_parent] at hgrows
    simpa using hgrows
  · simpa [Branch.idsOfAll] using hroot.nodup

end Tree

end LineScope
