import LineScope.Proofs.Tree.Reachable

/-!
# Attaching and detaching

Attaching looks for five reasons to refuse, one after the other, before it writes anything.
`Tree.insertionChecks` lists them in that order. An accepted insertion and the removal of the same
node undo each other slot by slot, so that the store is the same afterwards; in between, only the
subtrees around the place have another text.
-/
namespace LineScope

/-- A condition that a call needs, with the error it ends in without it. -/
structure EditCheck where
  condition : Prop
  failure : EditError

/-- The error is the one of the first condition that does not hold. -/
inductive EditCheck.FirstFailure : List EditCheck → EditError → Prop
  | here {check : EditCheck} {later : List EditCheck} (fails : ¬ check.condition) :
    FirstFailure (check :: later) check.failure
  | later {check : EditCheck} {later : List EditCheck} {cause : EditError}
    (holds : check.condition) (rest : FirstFailure later cause) :
    FirstFailure (check :: later) cause

open EditCheck (FirstFailure)

theorem EditCheck.FirstFailure.exists_not {checks : List EditCheck} {cause : EditError}
    (h : FirstFailure checks cause) : ∃ check ∈ checks, ¬ check.condition := by
  induction h with
  | here fails => exact ⟨_, by simp, fails⟩
  | later _ _ ih =>
    obtain ⟨check, hmem, hfails⟩ := ih
    exact ⟨check, List.mem_cons_of_mem _ hmem, hfails⟩

namespace Tree

/-- What attaching a node takes, in the order in which it is looked at. -/
def insertionChecks (t : Tree) (parent index child : NodeId) : List EditCheck :=
  [⟨child ≠ rootId, .attachRoot child⟩,
    ⟨t.parent? child = none, .alreadyAttached child⟩,
    ⟨¬ t.Below parent child, .cycle parent child⟩,
    ⟨(t.symbol? parent).isSome, .notInterior parent⟩,
    ⟨index ≤ (t.children parent).length,
      .indexOutOfBounds parent index (t.children parent).length⟩]

/-- The insertion as a change of a store in place. The child list is written before the link to the
parent, and an error leaves what has been written so far. -/
def insertChildInPlace (parent index child : NodeId) : EStateM EditError Tree Unit := do
  if child = rootId then
    throw (.attachRoot child)
  if ((← get).parent? child).isSome then
    throw (.alreadyAttached child)
  if child ∈ (← get).lineage parent then
    throw (.cycle parent child)
  match (← get).payload? parent with
  | some (.interior _ children) =>
    if children.length < index then
      throw (.indexOutOfBounds parent index children.length)
    modify (·.mapChildren parent (·.insertIdx index child))
  | _ => throw (.notInterior parent)
  modify (·.setParent child (some parent))

/-- One store is the other with a node put at an index below `parent`. -/
structure Inserted (t u : Tree) (parent index child : NodeId) : Prop where
  size : u.size = t.size
  leaf? : ∀ m, u.leaf? m = t.leaf? m
  symbol? : ∀ m, u.symbol? m = t.symbol? m
  children : ∀ m, u.children m =
    if m = parent then (t.children parent).insertIdx index child else t.children m
  parent? : ∀ m, u.parent? m = if m = child then some parent else t.parent? m

variable {t u : Tree} {n m p c : NodeId} {index : Nat}

/-- Nothing has been written yet when a reason to refuse is found. -/
theorem insertChildInPlace_run (t : Tree) (p index c : NodeId) :
    (insertChildInPlace p index c).run t =
      match t.insertChild p index c with
      | .ok u => .ok () u
      | .error cause => .error cause t := by
  unfold insertChild insertChildInPlace
  by_cases hroot : c = rootId
  · simp [hroot]
  by_cases hparent : (t.parent? c).isSome
  · simp [hroot, hparent]
  by_cases hline : c ∈ t.lineage p
  · simp [hroot, hparent, hline]
  rcases hpayload : t.payload? p with _ | _ | ⟨symbol, children⟩
  · simp [hroot, hparent, hline, hpayload]
  · simp [hroot, hparent, hline, hpayload]
  · by_cases hindex : index ≤ children.length
    · simp [hroot, hparent, hline, hpayload, hindex, Nat.not_lt.mpr hindex]
    · simp [hroot, hparent, hline, hpayload, hindex, Nat.lt_of_not_le hindex]

/-- The nodes passed on the way up are those above, so a cycle is never missed. -/
theorem WellFormed.mem_lineage_iff (h : t.WellFormed) (hn : n < t.size) :
    m ∈ t.lineage n ↔ t.Below n m := ⟨below_of_mem_climb, h.mem_lineage hn⟩

theorem WellFormed.insertChild_checked (h : t.WellFormed) (hp : p < t.size) (index : Nat)
    (c : NodeId) :
    (∃ u, t.insertChild p index c = .ok u ∧
      ∀ check ∈ t.insertionChecks p index c, check.condition) ∨
    ∃ cause, t.insertChild p index c = .error cause ∧
      FirstFailure (t.insertionChecks p index c) cause := by
  unfold Tree.insertChild insertionChecks
  by_cases hroot : c = rootId
  · exact .inr ⟨_, if_pos hroot, .here (not_not.mpr hroot)⟩
  rw [if_neg hroot]
  by_cases hparent : t.parent? c = none
  swap
  · rw [if_pos (Option.isSome_iff_ne_none.mpr hparent)]
    exact .inr ⟨_, rfl, .later hroot (.here hparent)⟩
  rw [if_neg (by simp [hparent])]
  by_cases hcycle : t.Below p c
  · rw [if_pos ((h.mem_lineage_iff hp).mpr hcycle)]
    exact .inr ⟨_, rfl, .later hroot (.later hparent (.here (not_not.mpr hcycle)))⟩
  rw [if_neg (mt (h.mem_lineage_iff hp).mp hcycle)]
  rcases hpayload : t.payload? p with _ | leaf | ⟨symbol, children⟩
  · refine .inr ⟨_, rfl, .later hroot (.later hparent (.later hcycle (.here ?_)))⟩
    simp [symbol?, hpayload]
  · refine .inr ⟨_, rfl, .later hroot (.later hparent (.later hcycle (.here ?_)))⟩
    simp [symbol?, hpayload]
  · have hinterior : (t.symbol? p).isSome := by simp [symbol?, hpayload]
    rw [children_of_payload? hpayload]
    by_cases hindex : index ≤ children.length
    · exact .inl ⟨_, if_pos hindex, by simp [hroot, hparent, hcycle, hinterior, hindex]⟩
    · exact .inr ⟨_, if_neg hindex,
        .later hroot (.later hparent (.later hcycle (.later hinterior (.here hindex))))⟩

theorem WellFormed.exists_insertChild_iff (h : t.WellFormed) (hp : p < t.size) :
    (∃ u, t.insertChild p index c = .ok u) ↔
      ∀ check ∈ t.insertionChecks p index c, check.condition := by
  rcases h.insertChild_checked hp index c with ⟨u, hu, hall⟩ | ⟨cause, hcause, hfirst⟩
  · exact ⟨fun _ => hall, fun _ => ⟨u, hu⟩⟩
  · obtain ⟨check, hmem, hfails⟩ := hfirst.exists_not
    exact ⟨fun ⟨u, hu⟩ => by simp [hcause] at hu, fun hall => absurd (hall check hmem) hfails⟩

theorem inserted_of_insertChild (hc : c < t.size) (h : t.insertChild p index c = .ok u) :
    t.Inserted u p index c := by
  have hchildren := children_of_insertChild h
  have hparent := parent?_of_insertChild h hc
  obtain ⟨-, -, -, -, -, rfl⟩ := insertChild_eq_ok h
  exact ⟨by rw [size_setParent, size_mapChildren], leaf?_relink t p c _ _, symbol?_relink t p c _ _,
    hchildren, hparent⟩

/-- Attaching accepts what is legal, writes one link, and otherwise names the first thing wrong and
leaves the store as it was. -/
theorem WellFormed.insertChild_outcome (h : t.WellFormed) (hp : p < t.size) (hc : c < t.size)
    (index : Nat) :
    ((∃ u, t.insertChild p index c = .ok u) ↔
      ∀ check ∈ t.insertionChecks p index c, check.condition) ∧
    (∀ u, t.insertChild p index c = .ok u →
      t.Inserted u p index c ∧ (insertChildInPlace p index c).run t = .ok () u) ∧
    ∀ cause, t.insertChild p index c = .error cause →
      FirstFailure (t.insertionChecks p index c) cause ∧
        (insertChildInPlace p index c).run t = .error cause t ∧
        (Edit.insert p index c).apply t = t := by
  refine ⟨h.exists_insertChild_iff hp, fun u hu => ?_, fun cause hcause => ?_⟩
  · refine ⟨inserted_of_insertChild hc hu, ?_⟩
    rw [insertChildInPlace_run, hu]
  · have hfirst : FirstFailure (t.insertionChecks p index c) cause := by
      rcases h.insertChild_checked hp index c with ⟨u, hu, -⟩ | ⟨cause', hcause', hfirst⟩
      · simp [hcause] at hu
      · rw [hcause, Except.error.injEq] at hcause'
        exact hcause' ▸ hfirst
    refine ⟨hfirst, ?_, ?_⟩
    · rw [insertChildInPlace_run, hcause]
    · rw [Edit.apply, hcause]
      rfl

/-- A statement of one name, and a block that hangs nowhere yet. -/
def looseBlock : Tree :=
  (build .fileInput [.enter .simpleStmt, .token ⟨.name, "", "a", 1⟩]).alloc (.interior .suite [])

theorem looseBlock_wellFormed : looseBlock.WellFormed := (build_wellFormed ..).alloc rfl

/-- The block can go behind the name. A leaf takes no children, and the index is too high as well:
the error tells of the leaf. -/
theorem looseBlock_insertChild :
    (∃ u, looseBlock.insertChild 1 1 3 = .ok u ∧ looseBlock.Inserted u 1 1 3) ∧
      FirstFailure (looseBlock.insertionChecks 2 9 3) (.notInterior 2) := by
  obtain ⟨-, hdoes, -⟩ :=
    @WellFormed.insertChild_outcome _ 1 3 looseBlock_wellFormed (by decide) (by decide) 1
  obtain ⟨-, -, hrefuses⟩ :=
    @WellFormed.insertChild_outcome _ 2 3 looseBlock_wellFormed (by decide) (by decide) 9
  obtain ⟨u, hu⟩ : ∃ u, looseBlock.insertChild 1 1 3 = .ok u := ⟨_, rfl⟩
  exact ⟨⟨u, hu, (hdoes u hu).1⟩, (hrefuses _ (by decide)).1⟩

section Inverse

theorem eq_of_slots (hpayload : ∀ m, u.payload? m = t.payload? m)
    (hparent : ∀ m, u.parent? m = t.parent? m) : u = t := by
  have hslots : u.slots = t.slots := by
    refine Array.ext_getElem? fun m => ?_
    cases hm : t.slots[m]? with
    | none =>
      have hnone : t.payload? m = none := by rw [payload?, hm, Option.map_none]
      exact Option.map_eq_none_iff.mp ((hpayload m).trans hnone)
    | some slot =>
      obtain ⟨hp, hq⟩ := slot_eq_some_iff.mp hm
      exact slot_eq_some_iff.mpr ⟨(hpayload m).trans hp, (hparent m).trans hq⟩
  cases t
  cases u
  exact congrArg Tree.mk hslots

/-- A walk looks only at child lists of nodes below those pending. -/
theorem visit_congr (h : t.Linked) {pending : List NodeId} {steps : Nat}
    (hsame : ∀ n ∈ pending, ∀ m, t.Below m n → u.children m = t.children m) :
    u.visit steps pending = t.visit steps pending := by
  induction steps generalizing pending with
  | zero => rfl
  | succ steps ih =>
    cases pending with
    | nil => rfl
    | cons n pending =>
      obtain ⟨hn, hpending⟩ := List.forall_mem_cons.mp hsame
      rw [visit, visit, hn n .refl, ih fun k hk m hm => ?_]
      rcases List.mem_append.mp hk with hk | hk
      · exact hn m (hm.tail (h.mem_children.mp hk))
      · exact hpending k hk m hm

/-- A subtree keeps its text when no child list in it changes. -/
theorem text_congr (h : t.Linked) (hsize : u.size = t.size) (hleaf : ∀ m, u.leaf? m = t.leaf? m)
    (hsame : ∀ m, t.Below m n → u.children m = t.children m) : u.text [n] = t.text [n] := by
  have hvisit : u.descendants n = t.descendants n := by
    rw [descendants, descendants, hsize]
    exact visit_congr h (by simpa using hsame)
  have hleaves : u.leaf? = t.leaf? := funext hleaf
  simp only [text, tokens, List.flatMap_singleton, leaves, hvisit, hleaves]

theorem payload?_of_insertChild (h : t.insertChild p index c = .ok u) (m : NodeId) :
    u.payload? m =
      if p = m then (t.payload? m).map (Payload.mapChildren (·.insertIdx index c))
      else t.payload? m := by
  obtain ⟨-, -, -, -, -, rfl⟩ := insertChild_eq_ok h
  rw [payload?_setParent, payload?_mapChildren]

theorem WellFormed.insertChild_of_remove? (h : t.WellFormed) (hp : t.parent? n = some p) :
    ∃ index u, t.remove? n = some (index, u) ∧ u.insertChild p index n = .ok t ∧
      ∀ m, ¬ t.Below p m → u.text [m] = t.text [m] := by
  have hmem := h.mem_children.mpr hp
  obtain ⟨symbol, hpayload⟩ := exists_interior_of_mem_children hmem
  obtain ⟨before, after, hsplit⟩ := List.append_of_mem hmem
  rw [hsplit] at hpayload
  obtain ⟨u, hremove, -, hsize, hparent, hslots⟩ := h.toLinked.remove? hpayload
  have hbare : u.payload? p = some (.interior symbol (before ++ after)) := by
    rw [hslots, if_pos rfl]
  have hroot : n ≠ rootId := by
    rintro rfl
    rw [h.root_parent] at hp
    cases hp
  -- Links only went away, so `n` is no more above `p` than before.
  have hcycle : ¬ u.Below p n := by
    refine fun hbelow => h.not_below_child hp ?_
    refine Relation.ReflTransGen.mono (fun c q hc => ?_) _ _ hbelow
    rw [IsChild, hparent] at hc
    split at hc
    · cases hc
    · exact hc
  obtain ⟨w, hw⟩ : ∃ w, u.insertChild p before.length n = .ok w := by
    refine ((h.remove? hremove).exists_insertChild_iff (lt_size_of_payload? hbare)).mpr ?_
    simp [insertionChecks, hroot, hparent, hcycle, symbol?, hbare, children_of_payload? hbare]
  have hback : w = t := by
    refine eq_of_slots (fun m => ?_) fun m => ?_
    · rw [payload?_of_insertChild hw, hslots]
      by_cases hm : p = m
      · rw [if_pos hm, if_pos hm.symm, ← hm, hpayload, Option.map_some, Payload.mapChildren,
          insertIdx_length_append]
      · rw [if_neg hm, if_neg (Ne.symm hm)]
    · rw [parent?_of_insertChild hw (hsize ▸ lt_size_of_parent? hp), hparent]
      by_cases hm : m = n
      · rw [if_pos hm, hm, hp]
      · rw [if_neg hm, if_neg hm]
  refine ⟨before.length, u, hremove, hback ▸ hw, fun m hm => ?_⟩
  refine text_congr h.toLinked hsize (fun k => ?_) fun k hk => ?_
  · obtain ⟨q, -, rfl⟩ := remove?_eq_some hremove
    exact leaf?_relink ..
  · have hne : k ≠ p := fun hkp => hm (hkp ▸ hk)
    rw [children_eq, children_eq, hslots, if_neg hne]

theorem WellFormed.remove?_of_insertChild (h : t.WellFormed) (hc : c < t.size)
    (hinsert : t.insertChild p index c = .ok u) :
    u.remove? c = some (index, t) ∧ ∀ m, ¬ t.Below p m → u.text [m] = t.text [m] := by
  have hdone := inserted_of_insertChild hc hinsert
  have hslots := payload?_of_insertChild hinsert
  obtain ⟨-, hfree, -, ⟨symbol, hpayload⟩, hindex, -⟩ := insertChild_eq_ok hinsert
  obtain ⟨before, after, hsplit, rfl⟩ :
      ∃ before after, t.children p = before ++ after ∧ before.length = index :=
    ⟨_, _, (List.take_append_drop index _).symm, List.length_take_of_le hindex⟩
  have hnew : u.payload? p = some (.interior symbol (before ++ c :: after)) := by
    rw [hslots, if_pos rfl, hpayload, Option.map_some, Payload.mapChildren, hsplit,
      insertIdx_length_append]
  obtain ⟨v, hremove, -, -, hparent, hback⟩ := (h.insertChild hc hinsert).toLinked.remove? hnew
  have hv : v = t := by
    refine eq_of_slots (fun m => ?_) fun m => ?_
    · rw [hback, hslots]
      by_cases hm : p = m
      · rw [if_pos hm.symm, ← hm, hpayload, hsplit]
      · rw [if_neg (Ne.symm hm), if_neg hm]
    · rw [hparent, hdone.parent?]
      by_cases hm : m = c
      · rw [if_pos hm, hm, hfree]
      · rw [if_neg hm, if_neg hm]
  refine ⟨hv ▸ hremove, fun m hm => ?_⟩
  refine text_congr h.toLinked hdone.size hdone.leaf? fun k hk => ?_
  have hne : k ≠ p := fun hkp => hm (hkp ▸ hk)
  rw [hdone.children, if_neg hne]

/-- Detaching and attaching undo each other in either order. What lies below neither the place nor
a node above it reads the same all the while. -/
theorem WellFormed.relink_inverse (h : t.WellFormed) :
    (∀ n p, t.parent? n = some p → ∃ index u, t.remove? n = some (index, u) ∧
      u.insertChild p index n = .ok t ∧ ∀ m, ¬ t.Below p m → u.text [m] = t.text [m]) ∧
    ∀ p index c u, c < t.size → t.insertChild p index c = .ok u →
      u.remove? c = some (index, t) ∧ ∀ m, ¬ t.Below p m → u.text [m] = t.text [m] :=
  ⟨fun _ _ hp => h.insertChild_of_remove? hp,
    fun _ _ _ _ hc hinsert => h.remove?_of_insertChild hc hinsert⟩

theorem looseBlock_relink :
    (∃ index u, looseBlock.remove? 1 = some (index, u) ∧ u.insertChild 0 index 1 = .ok looseBlock) ∧
      ∃ u, looseBlock.insertChild 1 0 3 = .ok u ∧ u.remove? 3 = some (0, looseBlock) ∧
        u.text [2] = "a" := by
  obtain ⟨hdetach, hattach⟩ := looseBlock_wellFormed.relink_inverse
  obtain ⟨index, u, hremove, hinsert, -⟩ := hdetach 1 0 rfl
  refine ⟨⟨index, u, hremove, hinsert⟩, ?_⟩
  obtain ⟨u, hu⟩ : ∃ u, looseBlock.insertChild 1 0 3 = .ok u := ⟨_, rfl⟩
  obtain ⟨hback, htext⟩ := hattach 1 0 3 u (by decide) hu
  have hapart : ¬ looseBlock.Below 1 2 := by
    rw [← looseBlock_wellFormed.mem_lineage_iff (by decide)]
    decide
  exact ⟨u, hu, hback, (htext 2 hapart).trans (by decide +kernel)⟩

end Inverse

end Tree

end LineScope
