import LineScope.Proofs.Collapse.Patching
import LineScope.Proofs.Collapse.Statement

/-!
# Statements overtaken by a suite

The statement pass lists what it will visit before it replaces anything. A suite may take its whole
statement away, and the pass then comes to the parts behind it all the same. `Tree.Behind` says where
such a part stands; nothing else is ever replaced after it was cut off.
-/
namespace LineScope

section Lists

variable {α β : Type} {R : α → β → Prop} {l : List α} {l' : List β} {y : β}

theorem exists_of_mem_forall₂ (h : List.Forall₂ R l l') (hy : y ∈ l') : ∃ x ∈ l, R x y := by
  induction h with
  | nil => cases hy
  | @cons a b l l' hab _ ih =>
    rcases List.mem_cons.mp hy with rfl | hy
    · exact ⟨a, by simp, hab⟩
    · obtain ⟨x, hx, hxy⟩ := ih hy
      exact ⟨x, List.mem_cons_of_mem _ hx, hxy⟩

theorem exists_getLast?_of_forall₂ (h : List.Forall₂ R l l') (hy : l'.getLast? = some y) :
    ∃ x, l.getLast? = some x ∧ R x y := by
  rw [← List.head?_reverse] at hy
  simp only [← List.head?_reverse]
  have hreverse := List.forall₂_reverse_iff.mpr h
  generalize l.reverse = front at hreverse ⊢
  generalize l'.reverse = back at hreverse hy
  cases hreverse with
  | nil => cases hy
  | @cons a b front back hab _ => exact ⟨a, rfl, Option.some.inj hy ▸ hab⟩

end Lists

namespace Tree

variable {t : Tree} {m n p a b z : NodeId}

/-- The first node comes before the other in the text, and neither is above the other. -/
def Precedes (t : Tree) (m n : NodeId) : Prop :=
  ∃ p a b, List.Sublist [a, b] (t.children p) ∧ t.Below m a ∧ t.Below n b

theorem symbol?_eq_none_of_kind? {kind : TokenKind} (h : t.kind? n = some kind) :
    t.symbol? n = none := by
  unfold kind? leaf? at h
  unfold symbol?
  cases hpayload : t.payload? n with
  | none => rfl
  | some payload =>
    cases payload with
    | token leaf => rfl
    | interior symbol children =>
      rw [hpayload] at h
      cases h

theorem Linked.siblings_of_sublist (h : t.Linked) (hab : List.Sublist [a, b] (t.children p)) :
    t.parent? a = some p ∧ t.parent? b = some p ∧ a ≠ b := by
  refine ⟨h.mem_children.mp (hab.subset (by simp)), h.mem_children.mp (hab.subset (by simp)), ?_⟩
  have hnodup := (h.nodup_children p).sublist hab
  rintro rfl
  simp at hnodup

theorem Linked.not_sublist_of_getLast? (h : t.Linked) (hlast : (t.children p).getLast? = some a) :
    ¬ List.Sublist [a, b] (t.children p) := by
  intro hab
  obtain ⟨init, hinit⟩ := List.getLast?_eq_some_iff.mp hlast
  have hnodup := h.nodup_children p
  rw [hinit] at hab hnodup
  have hreverse := hab.reverse
  rw [List.reverse_append] at hreverse
  have hmem : a ∈ init.reverse := List.singleton_sublist.mp hreverse.of_cons_cons
  exact (List.nodup_append.mp hnodup).2.2 a (List.mem_reverse.mp hmem) a (by simp) rfl

/-- A node above both of two nodes is above the place where their ways part. -/
theorem WellFormed.below_of_parting (h : t.WellFormed) (hab : List.Sublist [a, b] (t.children p))
    (hma : t.Below m a) (hnb : t.Below n b) (hmz : t.Below m z) (hnz : t.Below n z) :
    t.Below p z := by
  obtain ⟨ha, hb, hne⟩ := h.siblings_of_sublist hab
  have hnot : ¬ t.Below z a := fun hza => hne (h.eq_of_below ha hb (hnz.trans hza) hnb)
  rcases hma.total_of_right_unique (isChild_rightUnique t) hmz with haz | hza
  · rcases Relation.ReflTransGen.cases_head haz with rfl | ⟨q, hq, hqz⟩
    · exact absurd .refl hnot
    · rwa [isChild_rightUnique t hq ha] at hqz
  · exact absurd hza hnot

/-- A way up that parts below its second step parts at the first one or right there. -/
theorem WellFormed.parting_cases (h : t.WellFormed) {owner : NodeId}
    (hm : t.parent? m = some owner) (ha : t.parent? a = some p) (hma : t.Below m a)
    (hpz : t.Below p z) (hz : z = owner ∨ t.parent? owner = some z) :
    a = m ∧ p = owner ∨ a = owner ∧ p = z := by
  rcases Relation.ReflTransGen.cases_head hma with rfl | ⟨q, hq, hqa⟩
  · exact .inl ⟨rfl, isChild_rightUnique t ha hm⟩
  obtain rfl : q = owner := isChild_rightUnique t hq hm
  have hnot : ¬ t.Below z a := fun hza => h.not_below_child ha (hpz.trans hza)
  rcases hz with rfl | hz
  · exact absurd hqa hnot
  · rcases Relation.ReflTransGen.cases_head hqa with rfl | ⟨q', hq', hqa'⟩
    · exact .inr ⟨rfl, isChild_rightUnique t ha hz⟩
    · rw [isChild_rightUnique t hq' hz] at hqa'
      exact absurd hqa' hnot

/-- The node is the owner of a suite or the node that holds the owner behind an `async`. -/
def Holder (t : Tree) (owner z : NodeId) : Prop :=
  z = owner ∨ ∃ key, t.kind? key = some .async ∧ t.children z = [key, owner]

theorem Holder.below {owner : NodeId} (h : t.Linked) (hz : t.Holder owner z) :
    z = owner ∨ t.parent? owner = some z :=
  hz.imp id fun ⟨_, _, hchildren⟩ => h.mem_children.mp (by rw [hchildren]; simp)

/-- An `async` stands in a node with one other child, which it leads. -/
def Led (t : Tree) : Prop :=
  ∀ key p, t.kind? key = some .async → t.parent? key = some p →
    ∃ block, t.children p = [key, block]

/-- The way to the second node leads through a later part of the statement that the suite belongs
to. A suite and a last part are out of danger if they are such parts themselves. -/
def Behind (t : Tree) (s n : NodeId) : Prop :=
  t.symbol? s = some .suite ∧ ∃ owner part, List.Sublist [s, part] (t.children owner) ∧
    t.Below n part ∧
    (n = part → t.symbol? n = some .simpleStmt ∧ (t.children owner).getLast? ≠ some n)

/-- The visited nodes of a branch are listed in the order of the text. -/
theorem Grows.statementIds_ordered {parent : Option NodeId} {b : Branch} (h : t.Grows parent b) :
    b.statementIds.Pairwise t.Precedes ∧ ∀ n ∈ b.statementIds,
      t.Below n b.id ∧ (t.symbol? n = some .simpleStmt ∨ t.symbol? n = some .suite) := by
  induction b generalizing parent with
  | leaf id token => exact ⟨.nil, by simp [Branch.statementIds]⟩
  | node id symbol parts ih =>
    rw [Branch.statementIds]
    split
    · next hsymbol =>
      refine ⟨List.pairwise_singleton _ _, fun n hn => ?_⟩
      rw [List.mem_singleton.mp hn, h.symbol?_node]
      exact ⟨.refl, by simpa using hsymbol⟩
    · rw [Branch.statementIdsOfAll_eq_flatMap]
      refine ⟨List.pairwise_flatMap.mpr ⟨fun b hb => (ih b hb (h.part hb)).1, ?_⟩, fun n hn => ?_⟩
      · refine List.pairwise_iff_forall_sublist.mpr fun {b c} hbc m hm n hn => ?_
        have hb : b ∈ parts := hbc.subset (by simp)
        have hc : c ∈ parts := hbc.subset (by simp)
        refine ⟨id, b.id, c.id, ?_, ((ih b hb (h.part hb)).2 m hm).1,
          ((ih c hc (h.part hc)).2 n hn).1⟩
        rw [h.children_node]
        exact hbc.map Branch.id
      · obtain ⟨b, hb, hn⟩ := List.mem_flatMap.mp hn
        obtain ⟨hbelow, hsymbol⟩ := (ih b hb (h.part hb)).2 n hn
        exact ⟨hbelow.tail (h.part hb).parent?, hsymbol⟩

end Tree

namespace Collapse

open LineScope.Tree

theorem statements_ordered {t : Tree} (h : t.WellFormed) :
    (statements t).Pairwise t.Precedes ∧ ∀ n ∈ statements t,
      t.Below n rootId ∧ (t.symbol? n = some .simpleStmt ∨ t.symbol? n = some .suite) := by
  obtain ⟨root, hid, hholds⟩ := h.exists_holds
  rw [statements_eq hholds hid, ← hid]
  exact (hholds.grows root (by simp)).statementIds_ordered

section Steps

variable {t u : Tree} {m n z a p w owner : NodeId}

theorem Patched.parent? (h : Patched t u) (hn : n < t.size) (hp : u.parent? n = some p) :
    t.parent? n = some p := h.sheds.parent_of_some hn hp

/-- A chain of last children that starts below a node and ends above its parent goes through it. -/
theorem Patched.isLastChild (h : Patched t u) (ht : t.WellFormed) (hz : u.EndsWith z m)
    (ha : t.parent? a = some p) (hma : t.Below m a) (hpz : t.Below p z) : u.IsLastChild a p := by
  induction hz using Relation.ReflTransGen.head_induction_on with
  | refl => exact absurd (hpz.trans hma) (ht.not_below_child ha)
  | @head x y hxy _ ih =>
    have hlt : x < t.size := lt_size_of_below_child hma ha
    have hy := h.parent? hlt hxy.1
    rcases Relation.ReflTransGen.cases_head hma with rfl | ⟨q, hq, hqa⟩
    · obtain rfl := Option.some.inj (hy.symm.trans ha)
      exact hxy
    · obtain rfl := isChild_rightUnique t hq hy
      exact ih hqa

/-- The last child of a patched list, if it is old, was the last before. -/
theorem Patched.getLast?_of_new (h : Patched t u) (hp : p < t.size) (ha : a < t.size)
    (hlast : (u.children p).getLast? = some a) : (t.children p).getLast? = some a := by
  obtain ⟨x, hx, rfl | hnew⟩ := exists_getLast?_of_forall₂ (h.children p hp) hlast
  · exact hx
  · exact absurd ha (Nat.not_lt.mpr hnew)

/-- A last child that is still there is still the last. -/
theorem Patched.isLastChild_of_old (h : Patched t u) (ht : t.WellFormed)
    (ha : u.parent? a = some p) (hold : t.parent? a = some p)
    (hlast : (t.children p).getLast? = some a) : u.IsLastChild a p := by
  refine ⟨ha, ?_⟩
  have hmem := h.wellFormed.mem_children.mpr ha
  have hlt := lt_size_of_parent? hold
  have hall := h.children p (ht.parent_lt_size hold)
  obtain ⟨y, hy⟩ := Option.isSome_iff_exists.mp
    (List.getLast?_isSome.mpr (List.ne_nil_of_mem hmem))
  obtain ⟨init, hinit⟩ := List.getLast?_eq_some_iff.mp hy
  obtain ⟨front, hfront⟩ := List.getLast?_eq_some_iff.mp hlast
  rw [hinit, List.mem_append, List.mem_singleton] at hmem
  rcases hmem with hmem | rfl
  · -- Another place than the last would have held it before, too.
    rw [hinit, hfront] at hall
    have hlength : front.length = init.length := by
      simpa using hall.length_eq
    have htake := List.forall₂_take_append _ _ _ hall
    rw [← hlength, List.take_left] at htake
    obtain ⟨x, hx, rfl | hnew⟩ := exists_of_mem_forall₂ htake hmem
    · have hnodup := ht.nodup_children p
      rw [hfront, List.nodup_append] at hnodup
      exact absurd rfl (hnodup.2.2 _ hx _ (List.mem_singleton_self _))
    · exact absurd hlt (Nat.not_lt.mpr hnew)
  · exact hy

/-- What stands before a block and leads it was there from the start. -/
theorem Patched.holder_of_followsAsync (h : Patched t u) (ht : t.WellFormed) (hled : t.Led)
    (howner : u.parent? owner = some z) (hlt : owner < t.size)
    (hasync : followsAsync u owner = true) : t.Holder owner z := by
  unfold followsAsync at hasync
  obtain ⟨key, hprev, hkind⟩ := (Option.any_eq_true ..).mp hasync
  obtain ⟨q, left, right, hq, hchildren⟩ := prevSibling?_eq_some hprev
  obtain rfl : z = q := Option.some.inj (howner.symm.trans hq)
  have hkey : u.parent? key = some z := h.wellFormed.mem_children.mp (by rw [hchildren]; simp)
  have hkind : u.kind? key = some .async := eq_of_beq hkind
  have hold : key < t.size := by
    by_contra hnew
    have hfresh := h.sheds.fresh key (Nat.not_lt.mp hnew) (lt_size_of_parent? hkey)
    rw [isToken, hkind] at hfresh
    cases hfresh
  rw [h.sheds.kind? hold] at hkind
  obtain ⟨block, hblock⟩ := hled key z hkind (h.parent? hold hkey)
  have hmem : owner ∈ t.children z := ht.mem_children.mpr (h.parent? hlt howner)
  have hne : owner ≠ key := by
    have hnodup := h.wellFormed.nodup_children z
    rw [hchildren, List.nodup_append] at hnodup
    rintro rfl
    simp at hnodup
  rw [hblock, List.mem_cons, List.mem_singleton] at hmem
  rw [← hmem.resolve_left hne] at hblock
  exact .inr ⟨key, hkind, hblock⟩

/-- What leads a block leads it for as long as the block is there. -/
theorem Patched.followsAsync_of_holder (h : Patched t u) (ht : t.WellFormed) {key : NodeId}
    (hkey : t.kind? key = some .async) (hchildren : t.children z = [key, owner])
    (howner : u.parent? owner = some z) : followsAsync u owner = true := by
  have hboth : List.Sublist [key, owner] (t.children z) := by rw [hchildren]
  obtain ⟨hkeyz, hownerz, hne⟩ := ht.siblings_of_sublist hboth
  have hkeylt := lt_size_of_parent? hkeyz
  have hownerlt := lt_size_of_parent? hownerz
  have hkeyu : u.parent? key = some z := by
    rcases h.sheds.parent? key hkeylt with hkept | hgone
    · rw [hkept, hkeyz]
    · -- An `async` is a leaf, and no leaf goes.
      have hinterior := h.interior key (by rw [hkeyz]; rfl) hgone
      rw [symbol?_eq_none_of_kind? hkey] at hinterior
      cases hinterior
  have hnow : u.children z = [key, owner] := by
    have hall := h.children z (ht.parent_lt_size hkeyz)
    have hkeymem := h.wellFormed.mem_children.mpr hkeyu
    have hownermem := h.wellFormed.mem_children.mpr howner
    rw [hchildren] at hall
    generalize u.children z = now at hall hkeymem hownermem ⊢
    obtain ⟨x, y, rfl, hx, hy⟩ : ∃ x y, now = [x, y] ∧ (x = key ∨ t.size ≤ x) ∧
        (y = owner ∨ t.size ≤ y) := by
      cases hall with
      | cons hx hrest =>
        cases hrest with
        | cons hy hnil =>
          cases hnil
          exact ⟨_, _, rfl, hx, hy⟩
    simp only [List.mem_cons, List.not_mem_nil, or_false] at hkeymem hownermem
    obtain ⟨rfl, rfl⟩ : key = x ∧ owner = y := by grind
    rfl
  have hkind : u.kind? key = some .async := by rw [h.sheds.kind? hkeylt, hkey]
  simp [followsAsync, prevSibling?, siblings?, howner, hnow, List.idxOf?_cons, hne, isToken, hkind]

/-- Whatever has been replaced, a suite decides about its owner, or about the node that holds the
owner behind an `async`. -/
theorem Patched.exists_holder (h : Patched t u) (ht : t.WellFormed) (hled : t.Led)
    (hlt : m < t.size) (hz : suiteOwner? u m = some z) :
    ∃ owner, t.parent? m = some owner ∧ t.Holder owner z := by
  unfold suiteOwner? at hz
  split at hz
  · cases hz
  · next owner howner =>
    have hold := h.parent? hlt howner
    refine ⟨owner, hold, ?_⟩
    split at hz
    · next hasync => exact h.holder_of_followsAsync ht hled hz (ht.parent_lt_size hold) hasync
    · exact .inl (Option.some.inj hz).symm

/-- What the step of one statement takes away from a later one: a suite takes the parts behind it,
and a simple statement takes nothing. -/
theorem RegionOf.takes (hregion : RegionOf u m z) (h : Patched t u) (ht : t.WellFormed)
    (hled : t.Led) (hm : t.symbol? m = some .simpleStmt ∨ t.symbol? m = some .suite)
    (hmn : t.Precedes m n) (hnz : t.Below n z) :
    t.symbol? m = some .suite ∧ ∃ owner part, t.Holder owner z ∧
      List.Sublist [m, part] (t.children owner) ∧ t.Below n part := by
  obtain ⟨p, a, b, hab, hma, hnb⟩ := hmn
  obtain ⟨ha, hb, hne⟩ := ht.siblings_of_sublist hab
  have hlt := lt_size_of_below_child hma ha
  cases hregion with
  | @line newline simple last =>
    set z := furthestEndingWith u newline
    have hmline := h.wellFormed.endsWith_of_lastLeaf? last
    have hzline : u.EndsWith z newline := endsWith_furthestEndingWith u newline
    exfalso
    rcases hmline.total_of_right_unique (isLastChild_rightUnique u) hzline with hmz | hzm
    · -- The line ends the part `a` and what holds it, so `a` is the last part and `b` is not there.
      have hup := h.sheds.below ht.toLinked hlt (EndsWith.below hmz)
      have hpz := ht.below_of_parting hab hma hnb hup hnz
      exact ht.not_sublist_of_getLast? (h.getLast?_of_new (ht.parent_lt_size ha)
        (lt_size_of_parent? ha) (h.isLastChild ht hmz ha hma hpz).2) hab
    · have hz := ht.lt_size_of_below (lt_size_of_below_child hnb hb) hnz
      have hnm := hnz.trans (h.sheds.below ht.toLinked hz (EndsWith.below hzm))
      exact hne (ht.eq_of_below ha hb (hnm.trans hma) hnb)
  | block block owned =>
    rw [h.sheds.symbol? m hlt] at block
    have hup := h.sheds.below ht.toLinked hlt (suiteOwner?_below owned)
    have hpz := ht.below_of_parting hab hma hnb hup hnz
    refine ⟨hm.resolve_left block, ?_⟩
    obtain ⟨owner, hold, hholder⟩ := h.exists_holder ht hled hlt owned
    rcases ht.parting_cases hold ha hma hpz (hholder.below ht.toLinked) with
      ⟨rfl, rfl⟩ | ⟨rfl, rfl⟩
    · exact ⟨p, b, hholder, hab, hnb⟩
    · -- The node behind an `async` is the last one there.
      rcases hholder with rfl | ⟨key, -, hchildren⟩
      · exact absurd .refl (ht.not_below_child ha)
      · exact absurd hab (ht.not_sublist_of_getLast? (by rw [hchildren]; rfl))

/-- The furthest node that ends with a leaf is no last child. -/
theorem not_isLastChild_furthestLast {steps : Nat} (hu : u.WellFormed)
    (hall : ∀ m, u.Below n m → m ∈ u.climb steps n) :
    ¬ u.IsLastChild (furthestLast u n (u.climb steps n).tail) p := by
  induction steps generalizing n with
  | zero => exact absurd (hall n .refl) List.not_mem_nil
  | succ steps ih =>
    cases hq : u.parent? n with
    | none =>
      simp only [climb, hq, List.tail_cons, furthestLast]
      intro hlast
      rw [hlast.1] at hq
      cases hq
    | some q =>
      have hclimb : u.climb (steps + 1) n = n :: u.climb steps q := by rw [climb, hq]
      have habove : ∀ m, u.Below q m → m ∈ u.climb steps q := by
        intro m hm
        have hmem := hall m (.head hq hm)
        rw [hclimb] at hmem
        refine (List.mem_cons.mp hmem).resolve_left ?_
        rintro rfl
        exact hu.not_below_child hq hm
      rw [hclimb, List.tail_cons]
      cases hrest : u.climb steps q with
      | nil => exact absurd (hrest ▸ habove q .refl) List.not_mem_nil
      | cons q' above =>
        obtain rfl := eq_of_climb_eq_cons hrest
        rw [furthestLast]
        split
        · have hfurther := ih habove
          rwa [hrest] at hfurther
        · next hnot =>
          intro hlast
          obtain rfl : p = q' := isChild_rightUnique u hlast.1 hq
          exact hnot hlast.2

theorem not_isLastChild_furthestEndingWith (hu : u.WellFormed) (leaf p : NodeId) :
    ¬ u.IsLastChild (furthestEndingWith u leaf) p := by
  by_cases hlt : leaf < u.size
  · exact not_isLastChild_furthestLast hu fun m => hu.mem_lineage hlt
  · have hnone : u.parent? leaf = none :=
      Option.eq_none_iff_forall_ne_some.mpr fun q hq => hlt (lt_size_of_parent? hq)
    have hlineage : (u.lineage leaf).tail = [] := by
      unfold lineage
      cases u.size with
      | zero => rfl
      | succ steps => rw [climb, hnone, List.tail_cons]
    rw [furthestEndingWith, hlineage, furthestLast]
    exact fun hlast => hlt (lt_size_of_parent? hlast.1)

/-- Once a statement is gone its suites do nothing, and neither does the line that ends it. -/
theorem RegionOf.simple_of_gone (hregion : RegionOf u n z) (h : Patched t u) (ht : t.WellFormed)
    (hz : u.parent? z = some p) (hholder : t.Holder owner w) (hn : t.parent? n = some owner)
    (hw : u.parent? w = none) (hnw : u.Below n w) :
    t.symbol? n = some .simpleStmt ∧ (t.children owner).getLast? ≠ some n := by
  have hlt := lt_size_of_parent? hn
  have hhold := hholder.below ht.toLinked
  -- All links from the part up to the node that is gone are still there.
  have howner : u.parent? n = some owner ∧ u.Below owner w := by
    rcases Relation.ReflTransGen.cases_head hnw with rfl | ⟨q, hq, hqw⟩
    · refine absurd ?_ (ht.not_below_child hn)
      rcases hhold with rfl | hup
      · exact .refl
      · exact .single hup
    · obtain rfl := isChild_rightUnique t (h.parent? hlt hq) hn
      exact ⟨hq, hqw⟩
  have hgone : w = owner ∨ u.parent? owner = some w := by
    rcases Relation.ReflTransGen.cases_head howner.2 with heq | ⟨q, hq, -⟩
    · exact .inl heq.symm
    · rcases hhold with rfl | hup
      · exact .inl rfl
      · rw [isChild_rightUnique t (h.parent? (ht.parent_lt_size hn) hq) hup] at hq
        exact .inr hq
  have hnone : z ≠ w := by
    rintro rfl
    rw [hw] at hz
    cases hz
  cases hregion with
  | @line newline simple last =>
    rw [h.sheds.symbol? n hlt] at simple
    refine ⟨simple, fun hlast => ?_⟩
    have hnowner := h.isLastChild_of_old ht howner.1 hn hlast
    have hends : u.EndsWith w newline := by
      have hn := (h.wellFormed.endsWith_of_lastLeaf? last).tail hnowner
      rcases hholder with rfl | ⟨key, -, hchildren⟩
      · exact hn
      · rcases hgone with rfl | hup
        · exact hn
        · have hold := ht.mem_children.mp (show owner ∈ t.children w by rw [hchildren]; simp)
          exact hn.tail (h.isLastChild_of_old ht hup hold (by rw [hchildren]; rfl))
    rcases hends.total_of_right_unique (isLastChild_rightUnique u)
      (endsWith_furthestEndingWith u newline) with hwz | hzw
    · exact hnone (eq_of_below_of_parent? hw (EndsWith.below hwz))
    · rcases Relation.ReflTransGen.cases_head hzw with heq | ⟨q, hq, -⟩
      · exact hnone heq
      · exact not_isLastChild_furthestEndingWith h.wellFormed newline q hq
  | block block owned =>
    exfalso
    simp only [suiteOwner?, howner.1] at owned
    split at owned
    · rcases hgone with rfl | hup
      · rw [hw] at owned
        cases owned
      · exact hnone (Option.some.inj (owned.symm.trans hup))
    · next hasync =>
      obtain rfl := Option.some.inj owned
      have hup := hgone.resolve_left (Ne.symm hnone)
      rcases hholder with rfl | ⟨key, hkey, hchildren⟩
      · exact hnone rfl
      · exact hasync (h.followsAsync_of_holder ht hkey hchildren hup)

end Steps

end Collapse

end LineScope
