import LineScope.Proofs.Tree.Context
import LineScope.Tree.Walk

/-!
# Walks over a forest

What the walks of a store give when it holds a forest: going down yields the numbers and the leaves
of a branch in order, and going up yields the nodes above a gap. None of them runs out of steps.
-/
namespace LineScope

def Leaf.span? (tokens : List Leaf) : Option LineRange := do
  return ⟨(← tokens.head?).line, (← tokens.getLast?).endLine⟩

namespace Shape

/-- Induction on nesting: what holds of all the parts of a node holds of the node. -/
@[elab_as_elim, induction_eliminator]
theorem nesting {motive : Shape → Prop} (leaf : ∀ token, motive (.leaf token))
    (node : ∀ symbol parts, (∀ s ∈ parts, motive s) → motive (.node symbol parts))
    (s : Shape) : motive s := by
  refine @Shape.rec motive (fun parts => ∀ s ∈ parts, motive s) leaf node ?_ ?_ s
  · intro s hs
    simp at hs
  · intro s rest hs hrest c hc
    rcases List.mem_cons.mp hc with rfl | hc
    · exact hs
    · exact hrest c hc

def symbol? : Shape → Option Symbol
  | .leaf _ => none
  | .node symbol _ => some symbol

def kind? : Shape → Option TokenKind
  | .leaf token => some token.kind
  | .node _ _ => none

/-- No interior node is without parts. -/
inductive Full : Shape → Prop
  | leaf (token : Leaf) : Full (.leaf token)
  | node {symbol : Symbol} {parts : List Shape} (nonempty : parts ≠ [])
      (parts_full : ∀ s ∈ parts, Full s) : Full (.node symbol parts)

theorem tokensOfAll_eq_flatMap (shapes : List Shape) :
    tokensOfAll shapes = shapes.flatMap tokens := by
  induction shapes with
  | nil => rfl
  | cons s rest ih => simp [tokensOfAll, ih]

@[simp] theorem tokensOfAll_append (shapes more : List Shape) :
    tokensOfAll (shapes ++ more) = tokensOfAll shapes ++ tokensOfAll more := by
  simp [tokensOfAll_eq_flatMap]

theorem tokens_ne_nil_of_full {s : Shape} (h : s.Full) : s.tokens ≠ [] := by
  induction h with
  | leaf token => simp [tokens]
  | @node symbol parts nonempty parts_full ih =>
    obtain ⟨s, rest, rfl⟩ := List.exists_cons_of_ne_nil nonempty
    have hs := ih s (by simp)
    simp only [tokens, tokensOfAll, ne_eq, List.append_eq_nil_iff, not_and]
    exact fun hnil => absurd hnil hs

end Shape

theorem Branch.full_of_mem {id : NodeId} {symbol : Symbol} {parts : List Branch}
    (h : (Branch.node id symbol parts).shape.Full) :
    parts ≠ [] ∧ ∀ b ∈ parts, b.shape.Full := by
  rw [Branch.shape, Branch.shapesOfAll_eq_map] at h
  cases h with
  | node nonempty parts_full =>
    exact ⟨by simpa using nonempty, fun b hb => parts_full _ (List.mem_map_of_mem hb)⟩

theorem Branch.full_node {id : NodeId} {symbol : Symbol} {parts : List Branch} (hne : parts ≠ [])
    (hparts : ∀ b ∈ parts, b.shape.Full) : (Branch.node id symbol parts).shape.Full := by
  rw [Branch.shape, Branch.shapesOfAll_eq_map]
  refine .node (by simpa using hne) fun s hs => ?_
  obtain ⟨b, hb, rfl⟩ := List.mem_map.mp hs
  exact hparts b hb

theorem Branch.leaves_ne_nil_of_full {b : Branch} (h : b.shape.Full) : b.leaves ≠ [] := by
  have htokens := Shape.tokens_ne_nil_of_full h
  rw [Branch.tokens_shape] at htokens
  simpa using htokens

theorem idxOf?_append_cons {n : NodeId} {before after : List NodeId} (h : n ∉ before) :
    (before ++ n :: after).idxOf? n = some before.length := by
  induction before with
  | nil => simp [List.idxOf?_cons]
  | cons m before ih =>
    simp only [List.mem_cons, not_or] at h
    rw [List.cons_append, List.idxOf?_cons, if_neg (by simpa using Ne.symm h.1), ih h.2]
    simp

theorem Branch.exists_head?_flatMap {α : Type} {bs : List Branch} {f : Branch → List α}
    (hne : bs ≠ []) (hf : ∀ b ∈ bs, f b ≠ []) :
    ∃ b ∈ bs, (bs.map Branch.id).head? = some b.id ∧ (bs.flatMap f).head? = (f b).head? := by
  obtain ⟨b, rest, rfl⟩ := List.exists_cons_of_ne_nil hne
  obtain ⟨x, xs, hx⟩ := List.exists_cons_of_ne_nil (hf b (by simp))
  exact ⟨b, by simp, rfl, by simp [hx]⟩

theorem Branch.exists_getLast?_flatMap {α : Type} {bs : List Branch} {f : Branch → List α}
    (hne : bs ≠ []) (hf : ∀ b ∈ bs, f b ≠ []) :
    ∃ b ∈ bs, (bs.map Branch.id).getLast? = some b.id ∧
      (bs.flatMap f).getLast? = (f b).getLast? := by
  obtain ⟨rest, b, rfl⟩ := (List.eq_nil_or_concat bs).resolve_left hne
  refine ⟨b, by simp, by simp, ?_⟩
  rw [List.concat_eq_append, List.flatMap_append, List.flatMap_singleton, List.getLast?_append,
    List.getLast?_eq_some_getLast (hf b (by simp)), Option.some_or]

namespace Tree

/-- One end of each list: of nodes put together part by part it is the end of the part at that
end. -/
structure TakesEnd (choose : List NodeId → Option NodeId) : Prop where
  nil : choose [] = none
  exists_mem : ∀ ns, ns ≠ [] → ∃ n ∈ ns, choose ns = some n
  filter : ∀ ns p n, (choose ns).filter p = some n → choose (ns.filter p) = some n
  flatMap : ∀ (bs : List Branch) (f : Branch → List NodeId), bs ≠ [] → (∀ b ∈ bs, f b ≠ []) →
    ∃ b ∈ bs, choose (bs.map Branch.id) = some b.id ∧ choose (bs.flatMap f) = choose (f b)

theorem takesEnd_head? : TakesEnd List.head? where
  nil := rfl
  exists_mem ns hne := ⟨ns.head hne, List.head_mem hne, List.head?_eq_some_head hne⟩
  filter ns p n h := by
    obtain ⟨hhead, hp⟩ := Option.filter_eq_some_iff.mp h
    obtain ⟨rest, rfl⟩ := List.head?_eq_some_iff.mp hhead
    rw [List.filter_cons_of_pos hp, List.head?_cons]
  flatMap _ _ := Branch.exists_head?_flatMap

theorem takesEnd_getLast? : TakesEnd List.getLast? where
  nil := rfl
  exists_mem ns hne := ⟨ns.getLast hne, List.getLast_mem hne, List.getLast?_eq_some_getLast hne⟩
  filter ns p n h := by
    obtain ⟨hlast, hp⟩ := Option.filter_eq_some_iff.mp h
    obtain ⟨init, rfl⟩ := List.getLast?_eq_some_iff.mp hlast
    rw [List.filter_append, List.filter_cons_of_pos hp, List.filter_nil, List.getLast?_concat]
  flatMap _ _ := Branch.exists_getLast?_flatMap

theorem TakesEnd.singleton {choose : List NodeId → Option NodeId} (h : TakesEnd choose)
    (n : NodeId) : choose [n] = some n := by
  obtain ⟨m, hm, hchoose⟩ := h.exists_mem [n] (by simp)
  rw [hchoose, List.mem_singleton.mp hm]

def isTip (t : Tree) (n : NodeId) : Bool := (t.children n).isEmpty

section Grows

variable {t : Tree} {parent : Option NodeId} {id : NodeId} {symbol : Symbol}
  {parts : List Branch} {token : Leaf} {b : Branch} {choose : List NodeId → Option NodeId}

theorem Grows.payload?_node (h : t.Grows parent (.node id symbol parts)) :
    t.payload? id = some (.interior symbol (parts.map Branch.id)) := (grows_node.mp h).1.1

theorem Grows.part (h : t.Grows parent (.node id symbol parts)) (hb : b ∈ parts) :
    t.Grows (some id) b := (grows_node.mp h).2 b hb

theorem Grows.children_node (h : t.Grows parent (.node id symbol parts)) :
    t.children id = parts.map Branch.id := children_of_payload? h.payload?_node

theorem Grows.symbol?_node (h : t.Grows parent (.node id symbol parts)) :
    t.symbol? id = some symbol := by
  simp [symbol?, h.payload?_node]

theorem Grows.leaf?_node (h : t.Grows parent (.node id symbol parts)) : t.leaf? id = none := by
  simp [leaf?, h.payload?_node]

theorem Grows.leaf?_leaf (h : t.Grows parent (.leaf id token)) : t.leaf? id = some token := by
  simp [leaf?, (grows_leaf.mp h).1]

theorem Grows.symbol?_leaf (h : t.Grows parent (.leaf id token)) : t.symbol? id = none := by
  simp [symbol?, (grows_leaf.mp h).1]

theorem Grows.kind?_eq (h : t.Grows parent b) : t.kind? b.id = b.shape.kind? := by
  cases b with
  | leaf id token => simp [Tree.kind?, Branch.id, h.leaf?_leaf, Branch.shape, Shape.kind?]
  | node id symbol parts => simp [Tree.kind?, Branch.id, h.leaf?_node, Branch.shape, Shape.kind?]

theorem Grows.symbol?_eq (h : t.Grows parent b) : t.symbol? b.id = b.shape.symbol? := by
  cases b with
  | leaf id token => simp [Branch.id, h.symbol?_leaf, Branch.shape, Shape.symbol?]
  | node id symbol parts => simp [Branch.id, h.symbol?_node, Branch.shape, Shape.symbol?]

theorem Grows.children_leaf (h : t.Grows parent (.leaf id token)) : t.children id = [] := by
  simp [Tree.children, (grows_leaf.mp h).1]

theorem Grows.leaf?_of_mem (h : t.Grows parent b) {n : NodeId} (hn : (n, token) ∈ b.leaves) :
    t.leaf? n = some token := by
  induction b generalizing parent with
  | leaf id token' =>
    simp only [Branch.leaves, List.mem_singleton, Prod.mk.injEq] at hn
    rw [hn.1, hn.2]
    exact h.leaf?_leaf
  | node id symbol parts ih =>
    rw [Branch.leaves, Branch.leavesOfAll_eq_flatMap, List.mem_flatMap] at hn
    obtain ⟨b, hb, hn⟩ := hn
    exact ih b hb (h.part hb) hn

/-- Of the numbers of a branch, those of tokens are those of its leaves. -/
theorem Grows.filter_ids (h : t.Grows parent b) :
    (b.ids.filter fun m => (t.leaf? m).isSome) = b.leaves.map Prod.fst := by
  induction b generalizing parent with
  | leaf id token => simp [Branch.ids, Branch.leaves, h.leaf?_leaf]
  | node id symbol parts ih =>
    rw [Branch.ids, Branch.leaves, Branch.idsOfAll_eq_flatMap, Branch.leavesOfAll_eq_flatMap,
      List.filter_cons_of_neg (by simp [h.leaf?_node]), List.filter_flatMap, List.map_flatMap]
    exact List.flatMap_congr fun b hb => ih b hb (h.part hb)

theorem isTip_iff {n : NodeId} : t.isTip n = true ↔ t.children n = [] := List.isEmpty_iff

theorem Grows.filter_isTip_node (h : t.Grows parent (.node id symbol parts)) (hne : parts ≠ []) :
    (Branch.node id symbol parts).ids.filter t.isTip =
      parts.flatMap fun b => b.ids.filter t.isTip := by
  have hinner : ¬ t.isTip id = true := by
    rw [isTip_iff, h.children_node, List.map_eq_nil_iff]
    exact hne
  rw [Branch.ids, List.filter_cons_of_neg hinner, Branch.idsOfAll_eq_flatMap, List.filter_flatMap]

theorem Grows.filter_isTip_hollow (h : t.Grows parent (.node id symbol [])) :
    (Branch.node id symbol []).ids.filter t.isTip = [id] := by
  simp [Branch.ids, Branch.idsOfAll, isTip, h.children_node]

theorem Grows.filter_isTip_ne_nil (h : t.Grows parent b) : b.ids.filter t.isTip ≠ [] := by
  induction b generalizing parent with
  | leaf id token => simp [Branch.ids, isTip, h.children_leaf]
  | node id symbol parts ih =>
    cases parts with
    | nil => simp [h.filter_isTip_hollow]
    | cons b rest =>
      have hb : b.ids.filter t.isTip ≠ [] := ih b (by simp) (h.part (by simp))
      rw [h.filter_isTip_node (by simp), List.flatMap_cons]
      exact fun hnil => hb (List.append_eq_nil_iff.mp hnil).1

/-- Going down by one end finds the tip at that end if it is a leaf, and nothing otherwise. -/
theorem Grows.descend_eq (hchoose : TakesEnd choose) (h : t.Grows parent b) {steps : Nat}
    (hsteps : b.ids.length ≤ steps) :
    t.descend choose steps b.id =
      (choose (b.ids.filter t.isTip)).filter fun m => (t.leaf? m).isSome := by
  induction b generalizing parent steps with
  | leaf id token =>
    obtain ⟨k, rfl⟩ : ∃ k, steps = k + 1 := ⟨steps - 1, by simp [Branch.ids] at hsteps; omega⟩
    have htips : (Branch.leaf id token).ids.filter t.isTip = [id] := by
      simp [Branch.ids, isTip, h.children_leaf]
    rw [htips, hchoose.singleton, Option.filter_some, h.leaf?_leaf]
    simp [Tree.descend, Branch.id, (grows_leaf.mp h).1]
  | node id symbol parts ih =>
    obtain ⟨k, rfl⟩ : ∃ k, steps = k + 1 := ⟨steps - 1, by simp [Branch.ids] at hsteps; omega⟩
    by_cases hne : parts = []
    · subst hne
      rw [h.filter_isTip_hollow, hchoose.singleton, Option.filter_some, h.leaf?_node]
      simp [Tree.descend, Branch.id, h.payload?_node, hchoose.nil]
    · obtain ⟨b, hb, hid, htips⟩ := hchoose.flatMap parts (fun b => b.ids.filter t.isTip) hne
        fun b hb => (h.part hb).filter_isTip_ne_nil
      have hk : b.ids.length ≤ k := by
        have hle : b.ids.length ≤ (Branch.idsOfAll parts).length := by
          rw [Branch.idsOfAll_eq_flatMap]
          exact (List.sublist_flatten_of_mem (List.mem_map_of_mem hb)).length_le
        simp only [Branch.ids, List.length_cons] at hsteps
        omega
      rw [h.filter_isTip_node hne, htips]
      simp only [Tree.descend, Branch.id, h.payload?_node, hid, Option.bind_some]
      exact ih b hb (h.part hb) hk

theorem Grows.filter_isTip_of_full (h : t.Grows parent b) (hfull : b.shape.Full) :
    b.ids.filter t.isTip = b.leaves.map Prod.fst := by
  induction b generalizing parent with
  | leaf id token => simp [Branch.ids, Branch.leaves, isTip, h.children_leaf]
  | node id symbol parts ih =>
    obtain ⟨hne, hparts⟩ := Branch.full_of_mem hfull
    rw [h.filter_isTip_node hne, Branch.leaves, Branch.leavesOfAll_eq_flatMap, List.map_flatMap]
    exact List.flatMap_congr fun b hb => ih b hb (h.part hb) (hparts b hb)

/-- Where no node is without parts, going down by one end finds the leaf at that end. -/
theorem Grows.descend_of_full (hchoose : TakesEnd choose) (h : t.Grows parent b)
    (hfull : b.shape.Full) {steps : Nat} (hsteps : b.ids.length ≤ steps) :
    t.descend choose steps b.id = choose (b.leaves.map Prod.fst) := by
  have hne : b.leaves.map Prod.fst ≠ [] := by
    simpa using Branch.leaves_ne_nil_of_full hfull
  obtain ⟨m, hm, hend⟩ := hchoose.exists_mem _ hne
  obtain ⟨⟨_, token⟩, hmem, rfl⟩ := List.mem_map.mp hm
  rw [h.descend_eq hchoose hsteps, h.filter_isTip_of_full hfull, hend, Option.filter_some,
    h.leaf?_of_mem hmem]
  rfl

end Grows

theorem leavesOfAll_head? {bs : List Branch} (hne : bs ≠ []) (hfull : ∀ b ∈ bs, b.leaves ≠ []) :
    ∃ b ∈ bs, (bs.map Branch.id).head? = some b.id ∧
      (Branch.leavesOfAll bs).head? = b.leaves.head? := by
  rw [Branch.leavesOfAll_eq_flatMap]
  exact Branch.exists_head?_flatMap hne hfull

theorem leavesOfAll_getLast? {bs : List Branch} (hne : bs ≠ [])
    (hfull : ∀ b ∈ bs, b.leaves ≠ []) :
    ∃ b ∈ bs, (bs.map Branch.id).getLast? = some b.id ∧
      (Branch.leavesOfAll bs).getLast? = b.leaves.getLast? := by
  rw [Branch.leavesOfAll_eq_flatMap]
  exact Branch.exists_getLast?_flatMap hne hfull

theorem Grows.lt_size {t : Tree} {parent : Option NodeId} {b : Branch} (h : t.Grows parent b)
    {n : NodeId} (hn : n ∈ b.ids) : n < t.size := by
  rw [← b.rows_map_fst parent] at hn
  obtain ⟨row, hrow, rfl⟩ := List.mem_map.mp hn
  exact lt_size_of_payload? (slot_eq_some_iff.mp (h row hrow)).1

theorem length_ids_le_size {t : Tree} {parent : Option NodeId} {bs : List Branch}
    (h : ∀ b ∈ bs, t.Grows parent b) (hnodup : (Branch.idsOfAll bs).Nodup) :
    (Branch.idsOfAll bs).length ≤ t.size := by
  have hsub : Branch.idsOfAll bs ⊆ List.range t.size := by
    intro n hn
    rw [Branch.idsOfAll_eq_flatMap] at hn
    obtain ⟨b, hb, hn⟩ := List.mem_flatMap.mp hn
    exact List.mem_range.mpr ((h b hb).lt_size hn)
  simpa using (hnodup.subperm hsub).length_le

section Branches

variable {t : Tree} {parent : Option NodeId} {b : Branch} {bs : List Branch}

theorem Grows.length_ids_le_size (h : t.Grows parent b) (hnodup : b.ids.Nodup) :
    b.ids.length ≤ t.size := by
  have hall := @Tree.length_ids_le_size t parent [b] (by simpa using h)
    (by simpa [Branch.idsOfAll] using hnodup)
  simpa [Branch.idsOfAll] using hall

theorem Grows.firstLeaf? (h : t.Grows parent b) (hnodup : b.ids.Nodup) (hfull : b.shape.Full) :
    t.firstLeaf? b.id = b.leaves.head?.map Prod.fst := by
  rw [← List.head?_map]
  exact h.descend_of_full takesEnd_head? hfull (h.length_ids_le_size hnodup)

theorem Grows.lastLeaf? (h : t.Grows parent b) (hnodup : b.ids.Nodup) (hfull : b.shape.Full) :
    t.lastLeaf? b.id = b.leaves.getLast?.map Prod.fst := by
  rw [← List.getLast?_map]
  exact h.descend_of_full takesEnd_getLast? hfull (h.length_ids_le_size hnodup)

/-- Visiting branches yields their numbers, as long as there are steps for all of them. -/
theorem visit_eq_idsOfAll (h : ∀ b ∈ bs, ∃ parent, t.Grows parent b) {steps : Nat}
    (hsteps : (Branch.idsOfAll bs).length ≤ steps) :
    t.visit steps (bs.map Branch.id) = Branch.idsOfAll bs := by
  induction steps generalizing bs with
  | zero =>
    have hnil : Branch.idsOfAll bs = [] := List.length_eq_zero_iff.mp (Nat.le_zero.mp hsteps)
    simp [visit, hnil]
  | succ k ih =>
    cases bs with
    | nil => simp [visit, Branch.idsOfAll]
    | cons b rest =>
      obtain ⟨parent, hb⟩ := h b (by simp)
      have hrest : ∀ c ∈ rest, ∃ parent, t.Grows parent c := fun c hc => h c (by simp [hc])
      cases b with
      | leaf id token =>
        simp only [List.map_cons, Branch.id, visit, hb.children_leaf, List.nil_append,
          Branch.idsOfAll, Branch.ids, List.cons_append]
        rw [ih hrest (by simp [Branch.idsOfAll, Branch.ids] at hsteps; omega)]
      | node id symbol parts =>
        have hall : ∀ c ∈ parts ++ rest, ∃ parent, t.Grows parent c := by
          intro c hc
          rcases List.mem_append.mp hc with hc | hc
          · exact ⟨some id, hb.part hc⟩
          · exact hrest c hc
        simp only [List.map_cons, Branch.id, visit, hb.children_node, Branch.idsOfAll, Branch.ids,
          List.cons_append]
        rw [← List.map_append, ih hall, Branch.idsOfAll_append]
        simp only [Branch.idsOfAll, Branch.ids, List.length_append, List.length_cons,
          Branch.idsOfAll_append] at hsteps ⊢
        omega

theorem Grows.descendants_eq (h : t.Grows parent b) (hnodup : b.ids.Nodup) :
    t.descendants b.id = b.ids := by
  have hvisit := @visit_eq_idsOfAll t [b] (by simpa using ⟨parent, h⟩) t.size
    (by simpa [Branch.idsOfAll] using h.length_ids_le_size hnodup)
  simpa [descendants, Branch.idsOfAll] using hvisit

theorem Grows.leaves_eq (h : t.Grows parent b) (hnodup : b.ids.Nodup) :
    t.leaves b.id = b.leaves.map Prod.fst := by
  rw [Tree.leaves, h.descendants_eq hnodup, h.filter_ids]

theorem tokens_eq (h : ∀ b ∈ bs, ∃ parent, t.Grows parent b)
    (hnodup : (Branch.idsOfAll bs).Nodup) :
    t.tokens (bs.map Branch.id) = (Branch.leavesOfAll bs).map Prod.snd := by
  have hids : (bs.map Branch.id).flatMap t.leaves = (Branch.leavesOfAll bs).map Prod.fst := by
    rw [Branch.leavesOfAll_eq_flatMap, List.flatMap_map, List.map_flatMap]
    refine List.flatMap_congr fun b hb => ?_
    obtain ⟨parent, hgrows⟩ := h b hb
    refine hgrows.leaves_eq ?_
    rw [Branch.idsOfAll_eq_flatMap, List.nodup_flatMap] at hnodup
    exact hnodup.1 b hb
  rw [Tree.tokens, hids, List.filterMap_map, ← List.filterMap_eq_map]
  refine List.filterMap_congr fun x hx => ?_
  rw [Branch.leavesOfAll_eq_flatMap, List.mem_flatMap] at hx
  obtain ⟨b, hb, hx⟩ := hx
  obtain ⟨parent, hgrows⟩ := h b hb
  exact hgrows.leaf?_of_mem hx

/-- The lines of a run of branches are those from its first leaf to its last. -/
theorem lineSpan?_eq (h : ∀ b ∈ bs, ∃ parent, t.Grows parent b)
    (hnodup : (Branch.idsOfAll bs).Nodup) (hfull : ∀ b ∈ bs, b.shape.Full) :
    t.lineSpan? (bs.map Branch.id) = Leaf.span? ((Branch.leavesOfAll bs).map Prod.snd) := by
  by_cases hne : bs = []
  · rw [hne]
    rfl
  have hleaves : ∀ b ∈ bs, b.leaves ≠ [] := fun b hb => Branch.leaves_ne_nil_of_full (hfull b hb)
  have hids : ∀ b ∈ bs, b.ids.Nodup := fun b hb => Branch.ids_nodup_of_mem hnodup hb
  obtain ⟨head, hhead, hheadId, hheadLeaf⟩ := leavesOfAll_head? hne hleaves
  obtain ⟨last, hlast, hlastId, hlastLeaf⟩ := leavesOfAll_getLast? hne hleaves
  obtain ⟨_, hheadGrows⟩ := h head hhead
  obtain ⟨_, hlastGrows⟩ := h last hlast
  obtain ⟨⟨first, token⟩, hfirst⟩ := Option.isSome_iff_exists.mp
    (List.isSome_head?.mpr (hleaves head hhead))
  obtain ⟨⟨final, token'⟩, hfinal⟩ := Option.isSome_iff_exists.mp
    (List.getLast?_isSome.mpr (hleaves last hlast))
  have htoken : t.leaf? first = some token :=
    hheadGrows.leaf?_of_mem (List.mem_of_mem_head? hfirst)
  have htoken' : t.leaf? final = some token' :=
    hlastGrows.leaf?_of_mem (List.mem_of_getLast? hfinal)
  simp only [lineSpan?, Leaf.span?, hheadId, hlastId, List.head?_map, List.getLast?_map, hheadLeaf,
    hlastLeaf, hheadGrows.firstLeaf? (hids head hhead) (hfull head hhead),
    hlastGrows.lastLeaf? (hids last hlast) (hfull last hlast), hfirst, hfinal, Option.map_some,
    Option.bind_eq_bind, Option.bind_some, htoken, htoken']

end Branches

section Holds

variable {t : Tree} {forest : List Branch} {c : Context} {run others : List Branch}
  {gap : List NodeId}

theorem Holds.run_grows (h : t.Holds (c.fill run ++ others)) : ∀ b ∈ run, t.Grows c.parent b :=
  (holds_fill.mp h).2.1.1

theorem Holds.surrounds (h : t.Holds (c.fill run ++ others)) :
    t.Surrounds c (run.map Branch.id) := (holds_fill.mp h).2.1.2.1

theorem Holds.fill_nodup (h : t.Holds (c.fill run ++ others)) :
    (Branch.idsOfAll run ++ (c.ids ++ Branch.idsOfAll others)).Nodup := (holds_fill.mp h).2.2

theorem Holds.run_nodup (h : t.Holds (c.fill run ++ others)) : (Branch.idsOfAll run).Nodup :=
  (List.nodup_append.mp h.fill_nodup).1

theorem Surrounds.climb (h : t.Surrounds c gap) {n : NodeId} (hn : t.parent? n = c.parent)
    {steps : Nat} (hsteps : c.length < steps) : t.climb steps n = n :: c.map Frame.id := by
  induction c generalizing n gap steps with
  | nil =>
    obtain ⟨k, rfl⟩ : ∃ k, steps = k + 1 := ⟨steps - 1, by omega⟩
    simp [Tree.climb, hn, Context.parent]
  | cons f above ih =>
    obtain ⟨k, rfl⟩ : ∃ k, steps = k + 1 := ⟨steps - 1, by omega⟩
    have hclimb := ih h.2.2 h.1.2 (show above.length < k by simp at hsteps; omega)
    simp [Tree.climb, hn, Context.parent, hclimb]

theorem Holds.lineage (h : t.Holds (c.fill run ++ others)) {b : Branch} (hb : b ∈ run) :
    t.lineage b.id = b.id :: c.map Frame.id := by
  refine h.surrounds.climb (h.run_grows b hb).parent? ?_
  have hsize := length_ids_le_size h.grows h.nodup
  have hids := (c.idsOfAll_fill run).length_eq
  have hc := c.length_le_length_ids
  have hpos : 0 < (Branch.idsOfAll run).length :=
    List.length_pos_of_mem (Branch.ids_subset_idsOfAll hb b.id_mem_ids)
  simp only [Branch.idsOfAll_append, List.length_append] at hsize hids
  omega

theorem Holds.parent? (h : t.Holds (c.fill run ++ others)) {b : Branch} (hb : b ∈ run) :
    t.parent? b.id = c.parent := (h.run_grows b hb).parent?

theorem Holds.children_parent {f : Frame} {above : Context}
    (h : t.Holds (Context.fill (f :: above) run ++ others)) :
    t.children f.id = f.before.map Branch.id ++ run.map Branch.id ++ f.after.map Branch.id :=
  children_of_payload? h.surrounds.1.1

theorem Holds.takeWhile_children {f : Frame} {above : Context} {b : Branch}
    (h : t.Holds (Context.fill (f :: above) [b] ++ others)) :
    (t.children f.id).takeWhile (· != b.id) = f.before.map Branch.id := by
  have hnodup := h.linked.nodup_children f.id
  rw [h.children_parent] at hnodup ⊢
  simp only [List.map_cons, List.map_nil, List.append_assoc, List.singleton_append] at hnodup ⊢
  rw [List.nodup_middle, List.nodup_cons, List.mem_append, not_or] at hnodup
  rw [List.takeWhile_append_of_pos]
  · simp
  · intro n hn
    rw [bne_iff_ne]
    rintro rfl
    exact hnodup.1.1 hn

theorem Holds.symbol?_parent {f : Frame} {above : Context}
    (h : t.Holds (Context.fill (f :: above) run ++ others)) : t.symbol? f.id = some f.symbol := by
  simp [symbol?, h.surrounds.1.1]

theorem Holds.siblings? {f : Frame} {above : Context} {b : Branch}
    (h : t.Holds (Context.fill (f :: above) [b] ++ others)) :
    t.siblings? b.id = some (f.before.map Branch.id, f.after.map Branch.id) := by
  have hparent : t.parent? b.id = some f.id := h.parent? (by simp)
  have hchildren : t.children f.id = f.before.map Branch.id ++ b.id :: f.after.map Branch.id := by
    simpa using h.children_parent
  have hnodup := h.linked.nodup_children f.id
  rw [hchildren, List.nodup_middle, List.nodup_cons, List.mem_append, not_or] at hnodup
  rw [Tree.siblings?, hparent]
  simp only [Option.bind_eq_bind, Option.bind_some]
  rw [hchildren, idxOf?_append_cons hnodup.1.1]
  simp [List.drop_append]

theorem Holds.prevSibling? {f : Frame} {above : Context} {b : Branch}
    (h : t.Holds (Context.fill (f :: above) [b] ++ others)) :
    t.prevSibling? b.id = f.before.getLast?.map Branch.id := by
  simp [Tree.prevSibling?, h.siblings?]

theorem Grows.mem_ids_of_parent? {parent : Option NodeId} {b : Branch} (h : t.Grows parent b)
    (hlinked : t.Linked) {p n : NodeId} (hp : p ∈ b.ids) (hn : t.parent? n = some p) :
    n ∈ b.ids := by
  induction b generalizing parent with
  | leaf id token =>
    have hchild := hlinked.mem_children.mpr hn
    rw [Branch.ids, List.mem_singleton] at hp
    simp [hp, h.children_leaf] at hchild
  | node id symbol parts ih =>
    rw [Branch.ids, List.mem_cons, Branch.idsOfAll_eq_flatMap, List.mem_flatMap] at hp ⊢
    rcases hp with rfl | ⟨b, hb, hp⟩
    · have hchild := hlinked.mem_children.mpr hn
      rw [h.children_node] at hchild
      obtain ⟨b, hb, rfl⟩ := List.mem_map.mp hchild
      exact .inr ⟨b, hb, b.id_mem_ids⟩
    · exact .inr ⟨b, hb, ih b hb (h.part hb) hp⟩

theorem Grows.mem_ids_of_climb {root : Branch} (h : t.Grows none root) (hlinked : t.Linked)
    {n : NodeId} {steps : Nat} (hclimb : (t.climb steps n).getLast? = some root.id) :
    n ∈ root.ids := by
  induction steps generalizing n with
  | zero => simp [Tree.climb] at hclimb
  | succ k ih =>
    cases hn : t.parent? n with
    | none =>
      simp only [Tree.climb, hn, List.getLast?_singleton, Option.some.injEq] at hclimb
      exact hclimb ▸ root.id_mem_ids
    | some p =>
      simp only [Tree.climb, hn] at hclimb
      by_cases hnil : t.climb k p = []
      · rw [hnil, List.getLast?_singleton, Option.some.injEq] at hclimb
        exact hclimb ▸ root.id_mem_ids
      · rw [List.getLast?_cons_of_ne_nil hnil] at hclimb
        exact h.mem_ids_of_parent? hlinked (ih hclimb) hn

theorem Holds.isAttached_iff (h : t.Holds forest) {root : Branch} (hroot : root ∈ forest)
    (hid : root.id = rootId) {n : NodeId} : t.isAttached n = true ↔ n ∈ root.ids := by
  rw [isAttached, beq_iff_eq, ← hid]
  constructor
  · exact (h.grows root hroot).mem_ids_of_climb h.linked
  · intro hn
    obtain ⟨c, x, hfill, rfl⟩ := Context.exists_fill hn
    have hplace : t.Holds (c.fill [x] ++ []) := by
      refine ⟨h.linked, by simpa [hfill] using h.grows root hroot, ?_⟩
      simpa [hfill, Branch.idsOfAll] using Branch.ids_nodup_of_mem h.nodup hroot
    rw [hplace.lineage (by simp)]
    exact Context.getLast?_of_fill hfill

theorem Grows.full {parent : Option NodeId} {b : Branch} (h : t.Grows parent b)
    (hchildren : ∀ n ∈ b.ids, (t.symbol? n).isSome → t.children n ≠ []) : b.shape.Full := by
  induction b generalizing parent with
  | leaf id token => exact .leaf token
  | node id symbol parts ih =>
    rw [Branch.shape, Branch.shapesOfAll_eq_map]
    refine .node ?_ fun s hs => ?_
    · have hne := hchildren id (by simp [Branch.ids]) (by rw [h.symbol?_node]; rfl)
      rw [h.children_node] at hne
      simpa using hne
    · obtain ⟨b, hb, rfl⟩ := List.mem_map.mp hs
      exact ih b hb (h.part hb) fun n hn => hchildren n
        (List.mem_cons_of_mem _ (Branch.ids_subset_idsOfAll hb hn))

end Holds

end Tree

end LineScope
