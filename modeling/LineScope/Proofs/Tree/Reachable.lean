import LineScope.Proofs.Collapse.Preservation
import LineScope.Proofs.Tree.Numbering

/-!
# Stores stay forests

Every change of a store keeps it well formed, whether the change succeeds or not. Attaching is the
one that could close a cycle; it looks for the child among all nodes above the new parent, and
`Tree.WellFormed.mem_lineage` says that none of them is missed.
-/
namespace LineScope

namespace Tree

variable {t u : Tree} {n m : NodeId}

theorem children_eq_nil_of_leaf? {leaf : Leaf} (h : t.leaf? n = some leaf) : t.children n = [] := by
  unfold Tree.leaf? at h
  unfold Tree.children
  split at h
  · next hpayload => rw [hpayload]
  · cases h

theorem children_eq_nil_of_size_le (h : t.size ≤ n) : t.children n = [] := by
  rw [Tree.children, payload?, Array.getElem?_eq_none h]
  rfl

theorem below_of_mem_climb {steps : Nat} (h : m ∈ t.climb steps n) : t.Below n m := by
  induction steps generalizing n with
  | zero => cases h
  | succ steps ih =>
    unfold climb at h
    split at h
    · rw [List.mem_singleton.mp h]
    · next p hp =>
      rcases List.mem_cons.mp h with rfl | h
      · exact .refl
      · exact (ih h).head hp

theorem getLast?_climb {steps : Nat} (h : m ∈ t.climb steps n) (hm : t.parent? m = none) :
    (t.climb steps n).getLast? = some m := by
  induction steps generalizing n with
  | zero => cases h
  | succ steps ih =>
    cases hp : t.parent? n with
    | none =>
      rw [climb, hp, List.mem_singleton] at h
      rw [climb, hp, h]
      rfl
    | some p =>
      have hclimb : t.climb (steps + 1) n = n :: t.climb steps p := by rw [climb, hp]
      rw [hclimb] at h ⊢
      rcases List.mem_cons.mp h with rfl | h
      · rw [hm] at hp
        cases hp
      · rw [List.getLast?_cons, ih h]
        rfl

namespace WellFormed

/-- Going up passes every node above. The nodes passed so far are `below`; they are all different,
so the steps suffice. -/
theorem mem_climb (h : t.WellFormed) {steps : Nat} {below : List NodeId} (hn : n < t.size)
    (hsteps : below.length + steps = t.size) (hnodup : below.Nodup)
    (hlt : ∀ x ∈ below, x < t.size) (hbelow : ∀ x ∈ below, Relation.TransGen t.IsChild x n)
    (hm : t.Below n m) : m ∈ t.climb steps n := by
  have hfresh : n ∉ below := fun hmem => h.acyclic n (hbelow n hmem)
  induction steps generalizing n below with
  | zero =>
    have hsub : n :: below ⊆ List.range t.size := by
      intro x hx
      rcases List.mem_cons.mp hx with rfl | hx
      · exact List.mem_range.mpr hn
      · exact List.mem_range.mpr (hlt x hx)
    have hle := ((List.nodup_cons.mpr ⟨hfresh, hnodup⟩).subperm hsub).length_le
    simp only [List.length_cons, List.length_range] at hle
    omega
  | succ steps ih =>
    rcases Relation.ReflTransGen.cases_head hm with rfl | ⟨p, hp, hpm⟩
    · unfold Tree.climb
      split <;> simp
    · have hclimb : t.climb (steps + 1) n = n :: t.climb steps p := by
        simp only [Tree.climb, show t.parent? n = some p from hp]
      have hup : ∀ x ∈ n :: below, Relation.TransGen t.IsChild x p := by
        intro x hx
        rcases List.mem_cons.mp hx with rfl | hx
        · exact .single hp
        · exact (hbelow x hx).tail hp
      rw [hclimb]
      refine List.mem_cons_of_mem _ (ih (h.parent_lt_size hp) ?_
        (List.nodup_cons.mpr ⟨hfresh, hnodup⟩) (List.forall_mem_cons.mpr ⟨hn, hlt⟩) hup hpm ?_)
      · rw [List.length_cons]
        omega
      · exact fun hmem => h.acyclic p (hup p hmem)

theorem mem_lineage (h : t.WellFormed) (hn : n < t.size) (hm : t.Below n m) :
    m ∈ t.lineage n :=
  h.mem_climb hn (Nat.zero_add _) List.nodup_nil (by simp) (by simp) hm

/-- The attached nodes are those from which parents lead to the root. -/
theorem isAttached_iff_below (h : t.WellFormed) :
    t.isAttached n = true ↔ t.Below n rootId := by
  constructor
  · intro hn
    exact below_of_mem_climb (List.mem_of_getLast? (eq_of_beq hn))
  · intro hn
    rw [isAttached, lineage,
      getLast?_climb (h.mem_lineage (h.lt_size_of_below_root hn) hn) h.root_parent]
    exact beq_self_eq_true _

theorem of_eq (h : t.WellFormed) (hsize : t.size ≤ u.size)
    (hchildren : ∀ p, u.children p = t.children p) (hparent : ∀ c, u.parent? c = t.parent? c) :
    u.WellFormed := by
  have hchild : u.IsChild = t.IsChild := by
    funext c p
    rw [IsChild, IsChild, hparent]
  refine ⟨h.toLinked.of_eq hchildren hparent, fun n => ?_, h.root_lt_size.trans_le hsize, ?_⟩
  · rw [hchild]
    exact h.acyclic n
  · rw [hparent]
    exact h.root_parent

theorem mapLeaf (h : t.WellFormed) (f : Leaf → Leaf) : (t.mapLeaf n f).WellFormed :=
  h.of_eq (Nat.le_of_eq (size_mapLeaf ..).symm) (children_mapLeaf t n f) (parent?_mapLeaf t n f)

theorem alloc (h : t.WellFormed) {payload : Payload} (hchildless : payload.children = []) :
    (t.alloc payload).WellFormed := by
  refine h.of_eq (by rw [size_alloc]; exact Nat.le_succ _) (fun p => ?_) (parent?_alloc t payload)
  rw [children_eq, payload?_alloc]
  split
  · next hp => rw [Option.map_some, Option.getD_some, hchildless, hp,
      children_eq_nil_of_size_le (Nat.le_refl _)]
  · exact (children_eq t p).symm

theorem of_isChild (h : t.WellFormed) (hlinked : u.Linked) (hsize : t.size ≤ u.size)
    (hsub : ∀ {c p}, u.parent? c = some p → t.parent? c = some p) : u.WellFormed := by
  refine ⟨hlinked, fun n hn => h.acyclic n (Relation.TransGen.mono (fun _ _ hc => hsub hc) _ _ hn),
    h.root_lt_size.trans_le hsize, ?_⟩
  cases hroot : u.parent? rootId with
  | none => rfl
  | some p =>
    have hold := hsub hroot
    rw [h.root_parent] at hold
    cases hold

theorem remove? (h : t.WellFormed) {index : Nat} (hremove : t.remove? n = some (index, u)) :
    u.WellFormed := by
  cases hp : t.parent? n with
  | none => simp [Tree.remove?, hp] at hremove
  | some p =>
    have hmem := h.mem_children.mpr hp
    obtain ⟨symbol, hpayload⟩ := exists_interior_of_mem_children hmem
    obtain ⟨before, after, hsplit⟩ := List.append_of_mem hmem
    rw [hsplit] at hpayload
    obtain ⟨v, hv, hlinked, hsize, hparent, -⟩ := h.toLinked.remove? hpayload
    rw [hv, Option.some.injEq, Prod.mk.injEq] at hremove
    rw [← hremove.2]
    refine h.of_isChild hlinked (Nat.le_of_eq hsize.symm) fun {c q} hc => ?_
    rw [hparent] at hc
    split at hc
    · cases hc
    · exact hc

end WellFormed

theorem leaf?_relink (t : Tree) (p n : NodeId) (f : List NodeId → List NodeId)
    (parent : Option NodeId) (m : NodeId) :
    ((t.mapChildren p f).setParent n parent).leaf? m = t.leaf? m := by
  rw [← leaf?_mapChildren t p f m, leaf?, leaf?, payload?_setParent]

theorem symbol?_relink (t : Tree) (p n : NodeId) (f : List NodeId → List NodeId)
    (parent : Option NodeId) (m : NodeId) :
    ((t.mapChildren p f).setParent n parent).symbol? m = t.symbol? m := by
  rw [← symbol?_mapChildren t p f m, symbol?, symbol?, payload?_setParent]

section Attach

variable {p index c : NodeId}

theorem parent?_of_insertChild (h : t.insertChild p index c = .ok u) (hc : c < t.size) (m : NodeId) :
    u.parent? m = if m = c then some p else t.parent? m := by
  obtain ⟨-, -, -, -, -, rfl⟩ := insertChild_eq_ok h
  rw [parent?_setParent, parent?_mapChildren, size_mapChildren]
  by_cases hm : m = c
  · simp [hm, hc]
  · simp [hm, Ne.symm hm]

theorem children_of_insertChild (h : t.insertChild p index c = .ok u) (q : NodeId) :
    u.children q = if q = p then (t.children p).insertIdx index c else t.children q := by
  obtain ⟨-, -, -, ⟨symbol, hpayload⟩, -, rfl⟩ := insertChild_eq_ok h
  have hset (v : Tree) : (v.setParent c (some p)).children q = v.children q := by
    rw [children_eq, children_eq, payload?_setParent]
  rw [hset, children_mapChildren]
  by_cases hq : q = p
  · subst hq
    simp [symbol?, hpayload]
  · simp [hq, Ne.symm hq]

theorem Linked.insertChild (h : t.Linked) (hinsert : t.insertChild p index c = .ok u)
    (hc : c < t.size) : u.Linked := by
  obtain ⟨-, hloose, -, -, hindex, -⟩ := insertChild_eq_ok hinsert
  have hnew : c ∉ t.children p := by
    rw [h.mem_children, hloose]
    exact Option.some_ne_none p |>.symm
  refine ⟨fun {q m} => ?_, fun q => ?_⟩
  · rw [children_of_insertChild hinsert, parent?_of_insertChild hinsert hc]
    by_cases hq : q = p
    · subst hq
      rw [if_pos rfl, List.mem_insertIdx hindex, h.mem_children]
      by_cases hm : m = c <;> simp [hm]
    · rw [if_neg hq, h.mem_children]
      by_cases hm : m = c
      · simp [hm, hloose, Ne.symm hq]
      · simp [hm]
  · rw [children_of_insertChild hinsert]
    split
    · rw [(List.perm_insertIdx c (t.children p) hindex).nodup_iff, List.nodup_cons]
      exact ⟨hnew, h.nodup_children p⟩
    · exact h.nodup_children q

/-- A way up through the new link goes through the child and then through its parent. -/
theorem transGen_of_insertChild (h : t.insertChild p index c = .ok u) (hc : c < t.size)
    {a b : NodeId} (hab : Relation.TransGen u.IsChild a b) :
    Relation.TransGen t.IsChild a b ∨ t.Below a c ∧ t.Below p b := by
  have hlink {x y : NodeId} (hxy : u.IsChild x y) : t.IsChild x y ∨ x = c ∧ y = p := by
    unfold IsChild at hxy ⊢
    rw [parent?_of_insertChild h hc] at hxy
    split at hxy
    · next hx => exact .inr ⟨hx, (Option.some.inj hxy).symm⟩
    · exact .inl hxy
  induction hab with
  | single hstep =>
    rcases hlink hstep with hold | ⟨rfl, rfl⟩
    · exact .inl (.single hold)
    · exact .inr ⟨.refl, .refl⟩
  | tail _ hstep ih =>
    rcases hlink hstep with hold | ⟨rfl, rfl⟩
    · exact ih.imp (·.tail hold) (And.imp_right (·.tail hold))
    · exact .inr ⟨ih.elim (·.to_reflTransGen) And.left, .refl⟩

theorem WellFormed.insertChild (h : t.WellFormed) (hc : c < t.size)
    (hinsert : t.insertChild p index c = .ok u) : u.WellFormed := by
  obtain ⟨hroot, -, hline, ⟨symbol, hpayload⟩, -, -⟩ := insertChild_eq_ok hinsert
  have hapart : ¬ t.Below p c := fun hpc => hline (h.mem_lineage (lt_size_of_payload? hpayload) hpc)
  refine ⟨h.toLinked.insertChild hinsert hc, fun n hn => ?_, ?_, ?_⟩
  · rcases transGen_of_insertChild hinsert hc hn with hold | ⟨hnc, hpn⟩
    · exact h.acyclic n hold
    · exact hapart (hpn.trans hnc)
  · obtain ⟨-, -, -, -, -, rfl⟩ := insertChild_eq_ok hinsert
    rw [size_setParent, size_mapChildren]
    exact h.root_lt_size
  · rw [parent?_of_insertChild hinsert hc, if_neg (Ne.symm hroot)]
    exact h.root_parent

end Attach

end Tree

theorem Collapse.lasting_wellFormed : Lasting Tree.WellFormed where
  bare h := h.mapLeaf _
  remove? h hremove := h.remove? hremove
  alloc _ h := h.alloc rfl
  insertChild hchild h hinsert := h.insertChild hchild hinsert

inductive Edit where
  | newLeaf (leaf : Leaf)
  | newNode (symbol : Symbol)
  | append (parent child : NodeId)
  | insert (parent index child : NodeId)
  | remove (node : NodeId)
  | rewrite (node : NodeId) (change : Leaf → Leaf)
  | collapse (ranges : List LineRange) (wholeStatements : Bool)

namespace Edit

def nodes : Edit → List NodeId
  | .newLeaf _ | .newNode _ | .collapse _ _ => []
  | .append parent child | .insert parent _ child => [parent, child]
  | .remove node | .rewrite node _ => [node]

/-- The store after a call. One that fails changes nothing, but a collapse leaves what it had
reached. -/
def apply (t : Tree) : Edit → Tree
  | .newLeaf leaf => t.alloc (.token leaf)
  | .newNode symbol => t.alloc (.interior symbol [])
  | .append parent child => (t.appendChild parent child).toOption.getD t
  | .insert parent index child => (t.insertChild parent index child).toOption.getD t
  | .remove node => ((t.remove? node).map Prod.snd).getD t
  | .rewrite node change => t.mapLeaf node change
  | .collapse ranges wholeStatements => (t.collapseUnchanged ranges wholeStatements).tree

end Edit

namespace Tree

/-- Made by building and by calls that name only nodes of the store. -/
inductive Reachable : Tree → Prop
  | empty (symbol : Symbol) : Reachable (.empty symbol)
  | build (symbol : Symbol) (steps : List Step) : Reachable (.build symbol steps)
  | edit {t : Tree} (earlier : Reachable t) (e : Edit) (allotted : ∀ n ∈ e.nodes, n < t.size) :
      Reachable (e.apply t)

theorem WellFormed.apply {t : Tree} (h : t.WellFormed) (e : Edit)
    (hnodes : ∀ n ∈ e.nodes, n < t.size) : (e.apply t).WellFormed := by
  have hinsert {p index c : NodeId} (hc : c < t.size) :
      ((t.insertChild p index c).toOption.getD t).WellFormed := by
    cases hinsert : t.insertChild p index c with
    | error cause => exact h
    | ok u => exact h.insertChild hc hinsert
  cases e with
  | newLeaf leaf => exact h.alloc rfl
  | newNode symbol => exact h.alloc rfl
  | append parent child => exact hinsert (hnodes child (by simp [Edit.nodes]))
  | insert parent index child => exact hinsert (hnodes child (by simp [Edit.nodes]))
  | remove node =>
    rw [Edit.apply]
    cases hremove : t.remove? node with
    | none => exact h
    | some result => exact h.remove? hremove
  | rewrite node change => exact h.mapLeaf change
  | collapse ranges wholeStatements =>
    exact Collapse.lasting_wellFormed.collapseUnchanged h ranges wholeStatements

theorem Reachable.wellFormed {t : Tree} (h : t.Reachable) : t.WellFormed := by
  induction h with
  | empty symbol => exact build_wellFormed symbol []
  | build symbol steps => exact build_wellFormed symbol steps
  | edit earlier e allotted ih => exact ih.apply e allotted

/-- What the links of a store promise to those who read it. -/
structure IsForest (t : Tree) : Prop where
  children_lt_size : ∀ p, ∀ c ∈ t.children p, c < t.size
  /-- A child is listed once by its parent and by no other node. -/
  count_children : ∀ p c, (t.children p).count c = if t.parent? c = some p then 1 else 0
  acyclic : ∀ n, ¬ Relation.TransGen (fun c p => t.parent? c = some p) n n
  children_leaf : ∀ n leaf, t.leaf? n = some leaf → t.children n = []
  root_lt_size : rootId < t.size
  root_parent : t.parent? rootId = none

theorem Reachable.isForest {t : Tree} (h : t.Reachable) : t.IsForest where
  children_lt_size _ _ hc := lt_size_of_parent? (h.wellFormed.mem_children.mp hc)
  count_children p c := by
    split
    · next hp =>
      exact List.count_eq_one_of_mem (h.wellFormed.nodup_children p) (h.wellFormed.mem_children.mpr hp)
    · next hp => exact List.count_eq_zero.mpr (mt h.wellFormed.mem_children.mp hp)
  acyclic := h.wellFormed.acyclic
  children_leaf _ _ := children_eq_nil_of_leaf?
  root_lt_size := h.wellFormed.root_lt_size
  root_parent := h.wellFormed.root_parent

end Tree

/-- Two statements, the second unfinished. The first is put below itself in vain, then below the
second, and what results is collapsed. -/
def regrafted : Tree :=
  [.insert 1 0 1, .remove 1, .insert 4 1 1, .insert 1 0 4, .collapse [] true].foldl
    (fun t e => Edit.apply t e)
    (.build .fileInput [.leave, .enter .simpleStmt, .token ⟨.name, "", "a", 1⟩,
      .token ⟨.newline, "", "\n", 1⟩, .leave, .enter .simpleStmt, .token ⟨.name, "", "b", 2⟩,
      .token ⟨.newline, "", "\n", 2⟩])

theorem regrafted_isForest : regrafted.Reachable ∧ regrafted.IsForest := by
  have hreachable : regrafted.Reachable := by
    simp only [regrafted, List.foldl_cons, List.foldl_nil]
    refine .edit (.edit (.edit (.edit (.edit (.build _ _) _ ?_) _ ?_) _ ?_) _ ?_) _ ?_
    all_goals decide +kernel
  exact ⟨hreachable, hreachable.isForest⟩

end LineScope
