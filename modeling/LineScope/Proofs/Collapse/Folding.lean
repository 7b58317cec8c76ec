import LineScope.Collapse.LogicalLines
import LineScope.Proofs.Collapse.Walls
import Mathlib.Data.List.TakeWhile

/-!
# What one step of a pass can do

A step of either pass leaves the store as it was, or one region that is clear of the kept lines gives
way to a verbatim leaf. `Collapse.Folds` says which regions these are: a run of siblings, or an
`async` token with nodes inside the statement right after it. If suites are shut off, none of these
nodes is a suite.
-/
namespace LineScope

namespace Branch

theorem bare_full {b : Branch} (h : b.shape.Full) : b.bare.shape.Full := by
  induction b with
  | leaf id token => exact .leaf _
  | node id symbol parts ih =>
    obtain ⟨hne, hparts⟩ := full_of_mem h
    obtain ⟨b, rest, rfl⟩ := List.exists_cons_of_ne_nil hne
    rw [bare, shape, shapesOfAll_eq_map]
    refine .node (by simp) ?_
    intro s hs
    simp only [List.map_cons, List.mem_cons, List.mem_map] at hs
    rcases hs with rfl | ⟨c, hc, rfl⟩
    · exact ih b (by simp) (hparts b (by simp))
    · exact hparts c (by simp [hc])

end Branch

namespace Context

theorem full_of_fill {c : Context} {run : List Branch} (h : ∀ b ∈ c.fill run, b.shape.Full) :
    ∀ b ∈ run, b.shape.Full := by
  induction c generalizing run with
  | nil => exact h
  | cons f above ih =>
    intro b hb
    exact (Branch.full_of_mem (ih h _ (List.mem_singleton_self _))).2 b (by simp [hb])

theorem full_refill {c : Context} {run run' : List Branch} (h : ∀ b ∈ c.fill run, b.shape.Full)
    (hne : run' ≠ []) (hrun : ∀ b ∈ run', b.shape.Full) : ∀ b ∈ c.fill run', b.shape.Full := by
  induction c generalizing run run' with
  | nil => exact hrun
  | cons f above ih =>
    have hnode :=
      (Branch.full_of_mem (full_of_fill (c := above) h _ (List.mem_singleton_self _))).2
    refine ih h (by simp) fun b hb => ?_
    rw [List.mem_singleton.mp hb]
    refine Branch.full_node (by simp [hne]) fun b hb => ?_
    simp only [List.mem_append] at hb
    rcases hb with (hb | hb) | hb
    · exact hnode b (by simp [hb])
    · exact hrun b hb
    · exact hnode b (by simp [hb])

theorem exists_fill_cons (f : Frame) (above : Context) :
    ∃ top, ∀ run, ∃ b, fill (f :: above) run = [b] ∧ b.id = top := by
  obtain ⟨id, symbol, hnode⟩ := exists_fill_node f above
  refine ⟨id, fun run => ?_⟩
  obtain ⟨parts, hparts⟩ := hnode run
  exact ⟨_, hparts, rfl⟩

/-- Every node of a forest stands in the gap of some context. -/
theorem exists_place {forest : List Branch} {n : NodeId} (h : n ∈ Branch.idsOfAll forest) :
    ∃ (c : Context) (x : Branch) (others : List Branch),
      forest.Perm (c.fill [x] ++ others) ∧ x.id = n := by
  rw [Branch.idsOfAll_eq_flatMap, List.mem_flatMap] at h
  obtain ⟨b, hb, hn⟩ := h
  obtain ⟨c, x, hfill, hx⟩ := exists_fill hn
  obtain ⟨pre, post, rfl⟩ := List.append_of_mem hb
  refine ⟨c, x, pre ++ post, ?_, hx⟩
  rw [hfill]
  exact List.perm_middle

end Context

namespace Collapse

open LineScope.Tree

/-- One region that is clear of the kept lines gives way to a verbatim leaf numbered `new`, and the
nodes of `gone` become trees of their own. -/
inductive Folds (keep : LineSet) (new : NodeId) :
    List NodeId → List Branch → List Branch → Prop
  | siblings {f : Frame} {above : Context} {head : Branch} {rest others : List Branch} {leaf : Leaf}
      {more : List Leaf}
      (tokens : (Branch.leavesOfAll (head :: rest)).map Prod.snd = leaf :: more)
      (clear : clear keep (leaf :: more) = true) :
      Folds keep new ((head :: rest).map Branch.id)
        (Context.fill (f :: above) (head :: rest) ++ others)
        (Context.fill (f :: above) [.leaf new (verbatim leaf (Leaf.render (leaf.bare :: more)))] ++
          (head.bare :: rest ++ others))
  | keyword {f : Frame} {above : Context} {key owner : NodeId} {token : Leaf} {symbol : Symbol}
      {pre header post others : List Branch}
      (suite : ∃ b ∈ post.head?, b.shape.symbol? = some .suite)
      (clear : clear keep (token :: (Branch.leavesOfAll header).map Prod.snd) = true) :
      Folds keep new (key :: header.map Branch.id)
        (Context.fill (f :: above)
          [.leaf key token, .node owner symbol (pre ++ header ++ post)] ++ others)
        (Context.fill (f :: above) [.leaf new (verbatim token
            (Leaf.render (token.bare :: (Branch.leavesOfAll header).map Prod.snd))),
          .node owner symbol (pre ++ post)] ++ (.leaf key token.bare :: header ++ others))

section Folds

variable {keep : LineSet} {new : NodeId} {gone : List NodeId} {forest forest' : List Branch}

theorem Folds.full (h : Folds keep new gone forest forest')
    (hfull : ∀ b ∈ forest, b.shape.Full) : ∀ b ∈ forest', b.shape.Full := by
  cases h with
  | @siblings f above head rest others leaf more tokens clear =>
    have hrun := Context.full_of_fill fun b hb => hfull b (List.mem_append_left others hb)
    intro b hb
    simp only [List.mem_append, List.mem_cons] at hb
    rcases hb with hb | (rfl | hb) | hb
    · exact Context.full_refill (fun b hb => hfull b (List.mem_append_left others hb)) (by simp)
        (fun b hb => by rw [List.mem_singleton.mp hb]; exact .leaf _) b hb
    · exact Branch.bare_full (hrun head (by simp))
    · exact hrun b (by simp [hb])
    · exact hfull b (List.mem_append_right _ hb)
  | @keyword f above key owner token symbol pre header post others suite clear =>
    have hpost : post ≠ [] := by
      rintro rfl
      simp at suite
    have hrun := Context.full_of_fill fun b hb => hfull b (List.mem_append_left others hb)
    have hparts := (Branch.full_of_mem (hrun _ (List.mem_cons_of_mem _ (List.mem_singleton_self _)))).2
    intro b hb
    simp only [List.mem_append, List.mem_cons] at hb
    rcases hb with hb | (rfl | hb) | hb
    · refine Context.full_refill (fun b hb => hfull b (List.mem_append_left others hb)) (by simp)
        ?_ b hb
      intro b hb
      simp only [List.mem_cons, List.not_mem_nil, or_false] at hb
      rcases hb with rfl | rfl
      · exact .leaf _
      · refine Branch.full_node (by simp [hpost]) fun b hb => hparts b ?_
        rcases List.mem_append.mp hb with hb | hb <;> simp [hb]
    · exact .leaf _
    · exact hparts b (by simp [hb])
    · exact hfull b (List.mem_append_right _ hb)

theorem Folds.walled (h : Folds keep new gone forest forest')
    (hwalled : ∀ b ∈ forest, b.shape.Walled) : ∀ b ∈ forest', b.shape.Walled := by
  cases h with
  | @siblings f above head rest others leaf more tokens clear =>
    have hfill := fun b hb => hwalled b (List.mem_append_left others hb)
    obtain ⟨hrun, hwalls⟩ := Context.walled_of_fill hfill
    rw [List.forall_mem_cons] at hrun
    intro b hb
    simp only [List.mem_append, List.mem_cons] at hb
    rcases hb with hb | (rfl | hb) | hb
    · refine Context.walled_refill hfill ?_ (fun g hg => ?_) b hb
      · exact List.forall_mem_singleton.mpr (Shape.Walled.leaf _)
      have hg := hwalls g hg
      simp only [List.map_append, List.map_singleton, Branch.shape] at hg ⊢
      refine hg.replace (by simp [Shape.symbol?]) (by simp [Shape.kind?, verbatim])
        fun _ _ _ _ => ⟨.verbatim, by simp [Shape.kind?, verbatim], by decide⟩
    · exact Branch.walled_bare hrun.1
    · exact hrun.2 b hb
    · exact hwalled b (List.mem_append_right _ hb)
  | @keyword f above key owner token symbol pre header post others suite clear =>
    have hfill := fun b hb => hwalled b (List.mem_append_left others hb)
    obtain ⟨hrun, hwalls⟩ := Context.walled_of_fill hfill
    obtain ⟨hinner, hparts⟩ :=
      Branch.walled_node (hrun _ (List.mem_cons_of_mem _ (List.mem_singleton_self _)))
    have howner : (Branch.node owner symbol (pre ++ post)).shape.Walled := by
      refine Branch.node_walled ?_ fun b hb => hparts b ?_
      · rw [List.map_append, List.map_append] at hinner
        have hpost : post.map Branch.shape ≠ [] := by
          rintro hnil
          simp [List.map_eq_nil_iff.mp hnil] at suite
        have hreplaced := @Symbol.Walls.replace _ _ _ [] _ hinner (by simp) (by simp)
          fun hnil => absurd hnil hpost
        simpa using hreplaced
      · rcases List.mem_append.mp hb with hb | hb <;> simp [hb]
    intro b hb
    simp only [List.mem_append, List.mem_cons] at hb
    rcases hb with hb | (rfl | hb) | hb
    · refine Context.walled_refill hfill ?_ ?_ b hb
      · exact List.forall_mem_cons.mpr ⟨.leaf _, List.forall_mem_singleton.mpr howner⟩
      · intro g hg
        have hg := hwalls g hg
        simp only [List.map_append, List.map_cons, List.map_nil, Branch.shape] at hg ⊢
        refine hg.replace ?_ ?_ ?_
        · simp [Shape.symbol?]
        · simp [Shape.kind?, verbatim]
        · rintro - kind hlast
          simp [Shape.kind?] at hlast
    · exact .leaf _
    · exact hparts b (by simp [hb])
    · exact hwalled b (List.mem_append_right _ hb)

theorem Folds.subset_ids (h : Folds keep new gone forest forest') :
    Branch.idsOfAll forest ⊆ Branch.idsOfAll forest' := by
  intro n hn
  cases h with
  | siblings tokens clear =>
    rw [Context.mem_idsOfAll_fill] at hn ⊢
    simp only [Branch.idsOfAll, Branch.idsOfAll_append, Branch.bare_ids, List.cons_append,
      List.mem_append] at hn ⊢
    tauto
  | keyword suite clear =>
    rw [Context.mem_idsOfAll_fill] at hn ⊢
    simp only [Branch.idsOfAll, Branch.ids, Branch.idsOfAll_append, List.cons_append,
      List.nil_append, List.mem_append, List.mem_cons] at hn ⊢
    tauto

end Folds

/-- What a step made of a store: nothing new, or one region was folded, which spares the suites if
they are shut off. -/
inductive Stepped (keep : LineSet) (t : Tree) (forest : List Branch) : Tree → Prop
  | stay : Stepped keep t forest t
  | fold {u : Tree} {gone : List NodeId} {before after : List Branch} (perm : forest.Perm before)
      (folds : Folds keep t.size gone before after) (holds : u.Holds after)
      (size : u.size = t.size + 1)
      (parent? : ∀ n, n ≠ t.size → n ∉ gone → u.parent? n = t.parent? n)
      (spares : (∀ b ∈ forest, b.shape.Walled) → ∀ n ∈ gone, t.symbol? n ≠ some .suite) :
      Stepped keep t forest u

section Steps

variable {keep : LineSet} {t : Tree} {forest : List Branch} {n m : NodeId}

theorem mem_ids_of_parent? (h : t.Holds forest) (hn : n ∈ Branch.idsOfAll forest)
    (hparent : t.parent? n = some m) : m ∈ Branch.idsOfAll forest := by
  obtain ⟨c, x, others, hperm, rfl⟩ := Context.exists_place hn
  have hplace := h.of_perm hperm
  rw [hplace.parent? (List.mem_singleton_self x)] at hparent
  rw [(Branch.idsOfAll_perm hperm).mem_iff, Context.mem_idsOfAll_fill]
  cases c with
  | nil => simp [Context.parent] at hparent
  | cons f above =>
    simp only [Context.parent, List.head?_cons, Option.map_some, Option.some.injEq] at hparent
    simp [Context.ids, hparent]

theorem mem_ids_of_lastLeaf? (h : t.Holds forest) (hfull : ∀ b ∈ forest, b.shape.Full)
    (hn : n ∈ Branch.idsOfAll forest) (hlast : t.lastLeaf? n = some m) :
    m ∈ Branch.idsOfAll forest := by
  obtain ⟨c, x, others, hperm, rfl⟩ := Context.exists_place hn
  have hplace := h.of_perm hperm
  have hx : x.shape.Full := Context.full_of_fill
    (fun b hb => hfull b (hperm.symm.subset (List.mem_append_left others hb))) x (by simp)
  have hnodup : x.ids.Nodup := by simpa [Branch.idsOfAll] using hplace.run_nodup
  rw [(hplace.run_grows x (by simp)).lastLeaf? hnodup hx, Option.map_eq_some_iff] at hlast
  obtain ⟨leaf, hleaf, rfl⟩ := hlast
  have hmem : leaf.1 ∈ x.ids :=
    x.leaves_map_fst_sublist.subset (List.mem_map_of_mem (List.mem_of_getLast? hleaf))
  rw [(Branch.idsOfAll_perm hperm).mem_iff, Context.mem_idsOfAll_fill]
  simp [Branch.idsOfAll, hmem]

theorem mem_ids_furthestEndingWith (h : t.Holds forest) (hn : n ∈ Branch.idsOfAll forest) :
    furthestEndingWith t n ∈ Branch.idsOfAll forest := by
  obtain ⟨c, x, others, hperm, rfl⟩ := Context.exists_place hn
  rw [furthestEndingWith_eq (h.of_perm hperm)]
  rw [(Branch.idsOfAll_perm hperm).mem_iff, ← fill_closing, Context.mem_idsOfAll_fill]
  simp [Branch.idsOfAll, Branch.id_mem_ids]

theorem mem_ids_of_mem_statementsBelow {t : Tree} {root : Branch} (hroot : t.Grows none root)
    (hlinked : t.Linked) {steps : Nat} {pending : List NodeId}
    (hpending : ∀ n ∈ pending, n ∈ root.ids) :
    ∀ n ∈ statementsBelow t steps pending, n ∈ root.ids := by
  induction steps generalizing pending with
  | zero => simp [statementsBelow]
  | succ k ih =>
    cases pending with
    | nil => simp [statementsBelow]
    | cons m rest =>
      rw [List.forall_mem_cons] at hpending
      have hchildren : ∀ n ∈ t.children m ++ rest, n ∈ root.ids := by
        intro n hn
        rcases List.mem_append.mp hn with hn | hn
        · exact hroot.mem_ids_of_parent? hlinked hpending.1 (hlinked.mem_children.mp hn)
        · exact hpending.2 n hn
      rw [statementsBelow]
      split
      · exact List.forall_mem_cons.mpr ⟨hpending.1, ih hpending.2⟩
      · exact List.forall_mem_cons.mpr ⟨hpending.1, ih hpending.2⟩
      · exact ih hchildren
      · exact ih hpending.2

theorem symbol?_of_mem_statementsBelow {steps : Nat} {pending : List NodeId} :
    ∀ n ∈ statementsBelow t steps pending,
      t.symbol? n = some .simpleStmt ∨ t.symbol? n = some .suite := by
  induction steps generalizing pending with
  | zero => simp [statementsBelow]
  | succ k ih =>
    cases pending with
    | nil => simp [statementsBelow]
    | cons m rest =>
      rw [statementsBelow]
      split
      · next hsymbol => exact List.forall_mem_cons.mpr ⟨.inl hsymbol, ih⟩
      · next hsymbol => exact List.forall_mem_cons.mpr ⟨.inr hsymbol, ih⟩
      · exact ih
      · exact ih

theorem symbol?_furthestEndingWith (h : t.Holds forest) (hwalled : ∀ b ∈ forest, b.shape.Walled)
    (hn : n ∈ Branch.idsOfAll forest) (hkind : t.isToken n .newline = true) :
    t.symbol? (furthestEndingWith t n) ≠ some .suite := by
  obtain ⟨c, x, others, hperm, rfl⟩ := Context.exists_place hn
  have hplace := h.of_perm hperm
  have hgrows := hplace.run_grows x (List.mem_singleton_self x)
  have hfill : ∀ b ∈ c.fill [x], b.shape.Walled := fun b hb =>
    hwalled b (hperm.symm.subset (List.mem_append_left others hb))
  rw [isToken, hgrows.kind?_eq, beq_iff_eq] at hkind
  have hleaf : x.shape.symbol? ≠ some .suite := by
    cases x with
    | leaf id token => exact nofun
    | node id symbol parts => cases hkind
  have hclosing := symbol?_closing hfill hleaf fun kind hmem => by
    rw [hkind] at hmem
    exact (Option.some.inj hmem).symm
  rw [furthestEndingWith_eq hplace]
  rw [← fill_closing] at hplace
  rwa [(hplace.run_grows _ (List.mem_singleton_self _)).symbol?_eq]

/-- Neither the owner of a suite is a suite, nor what holds the owner with its `async`. -/
theorem symbol?_suiteOwner (h : t.Holds forest) (hwalled : ∀ b ∈ forest, b.shape.Walled)
    (hn : n ∈ Branch.idsOfAll forest) (hsuite : t.symbol? n = some .suite)
    (hregion : suiteOwner? t n = some m) : t.symbol? m ≠ some .suite := by
  obtain ⟨c, x, others, hperm, rfl⟩ := Context.exists_place hn
  have hplace := h.of_perm hperm
  have hfill : ∀ b ∈ c.fill [x], b.shape.Walled := fun b hb =>
    hwalled b (hperm.symm.subset (List.mem_append_left others hb))
  rw [(hplace.run_grows x (List.mem_singleton_self x)).symbol?_eq] at hsuite
  rw [suiteOwner?, hplace.parent? (List.mem_singleton_self x)] at hregion
  cases c with
  | nil => cases hregion
  | cons f above =>
    have hfsuite : f.symbol ≠ .suite := fun hf =>
      ((Context.walled_of_fill hfill).2 f rfl).suites (.inl hf) x.shape (by simp) hsuite
    have howner : t.Holds (Context.fill above
        [.node f.id f.symbol (f.before ++ [x] ++ f.after)] ++ others) := hplace
    simp only [Context.parent, List.head?_cons, Option.map_some] at hregion
    split at hregion
    · next hasync =>
      have hparent : t.parent? f.id = Context.parent above :=
        howner.parent? (List.mem_singleton_self _)
      rw [hparent] at hregion
      cases above with
      | nil => cases hregion
      | cons g up =>
        obtain rfl := Option.some.inj hregion
        have habove : ∀ b ∈ Context.fill (g :: up)
            [.node f.id f.symbol (f.before ++ [x] ++ f.after)], b.shape.Walled := hfill
        have hprev : t.prevSibling? f.id = g.before.getLast?.map Branch.id := howner.prevSibling?
        rw [howner.symbol?_parent]
        intro hg
        rw [followsAsync, hprev, Option.any_map] at hasync
        obtain ⟨key, hkey, htoken⟩ := (Option.any_eq_true _ _).mp hasync
        have hmem : key ∈ g.before := List.mem_of_getLast? hkey
        have hgrows := howner.surrounds.2.1 key (List.mem_append_left _ hmem)
        rw [isToken, hgrows.kind?_eq, beq_iff_eq] at htoken
        exact ((Context.walled_of_fill habove).2 g rfl).asyncs (Option.some.inj hg) key.shape
          (List.mem_map_of_mem (by simp [hmem])) htoken
    · rw [← Option.some.inj hregion, hplace.symbol?_parent]
      exact fun hf => hfsuite (Option.some.inj hf)

theorem stepped_node (h : t.Holds forest) (hfull : ∀ b ∈ forest, b.shape.Full)
    (hn : n ∈ Branch.idsOfAll forest)
    (hspares : (∀ b ∈ forest, b.shape.Walled) → t.symbol? n ≠ some .suite) :
    Stepped keep t forest
      (if misses t keep [n] then collapseNode t n else ⟨t, .ok false⟩ : Outcome Bool).tree := by
  obtain ⟨c, x, others, hperm, rfl⟩ := Context.exists_place hn
  have hplace := h.of_perm hperm
  have hx : x.shape.Full := Context.full_of_fill
    (fun b hb => hfull b (hperm.symm.subset (List.mem_append_left others hb))) x (by simp)
  rw [misses_node keep hplace hx]
  split
  · next hclear =>
    cases c with
    | nil =>
      rw [collapseNode_top hplace]
      exact .stay
    | cons f above =>
      obtain ⟨⟨first, leaf⟩, more, hleaves⟩ :=
        List.exists_cons_of_ne_nil (Branch.leaves_ne_nil_of_full hx)
      by_cases hmore : more = []
      · rw [collapseNode_single hplace hx (hmore ▸ hleaves)]
        exact .stay
      · obtain ⟨u, hok, hsize, hu, hparent⟩ := collapseNode_place hplace hx hleaves hmore
        rw [hok]
        have hfolds := @Folds.siblings keep t.size f above x [] others leaf (more.map Prod.snd)
          (by simp [Branch.leavesOfAll, hleaves]) (by simpa [hleaves] using hclear)
        exact .fold hperm hfolds hu hsize (fun m hm hgone => hparent m hm (by simpa using hgone))
          fun hwalled => List.forall_mem_singleton.mpr (hspares hwalled)
  · exact .stay

theorem stepped_statement (h : t.Holds forest) (hfull : ∀ b ∈ forest, b.shape.Full)
    (hn : n ∈ Branch.idsOfAll forest)
    (hsymbol : t.symbol? n = some .simpleStmt ∨ t.symbol? n = some .suite) :
    Stepped keep t forest (statement keep t n).tree := by
  rw [statement]
  split
  · rw [simpleStatement]
    split
    · exact .stay
    · next newline hlast =>
      have hmem := mem_ids_of_lastLeaf? h hfull hn hlast
      split
      · next hkind =>
        exact stepped_node h hfull (mem_ids_furthestEndingWith h hmem)
          fun hwalled => symbol?_furthestEndingWith h hwalled hmem hkind
      · exact .stay
  · next hsimple =>
    have hsuite : t.symbol? n = some .suite :=
      hsymbol.resolve_left fun heq => hsimple (by simp [isSymbol, heq])
    rw [suite]
    split
    · exact .stay
    · split
      · exact .stay
      · next region hregion =>
        refine stepped_node h hfull ?_ fun hwalled => symbol?_suiteOwner h hwalled hn hsuite hregion
        unfold suiteOwner? at hregion
        split at hregion
        · simp at hregion
        · next owner howner =>
          have hmem := mem_ids_of_parent? h hn howner
          split at hregion
          · exact mem_ids_of_parent? h hmem hregion
          · exact Option.some.inj hregion ▸ hmem

/-- The header of a suite is the end of what stands before it. -/
theorem exists_headerBefore (t : Tree) (before : List Branch) :
    ∃ pre header, before = pre ++ header ∧
      headerBefore t (before.map Branch.id) = header.map Branch.id ∧
      ∀ n ∈ header.map Branch.id, t.symbol? n ≠ some .suite := by
  set p := fun b : Branch => !t.isSymbol b.id .suite with hp
  refine ⟨(before.reverse.dropWhile p).reverse, (before.reverse.takeWhile p).reverse, ?_, ?_, ?_⟩
  · rw [← List.reverse_append, List.takeWhile_append_dropWhile, List.reverse_reverse]
  · rw [headerBefore, ← List.map_reverse, List.takeWhile_map, ← List.map_reverse]
    rfl
  · rw [List.forall_mem_map]
    intro b hb hsuite
    have hpb : p b = true := List.mem_takeWhile_imp (p := p) (List.mem_reverse.mp hb)
    simp [hp, isSymbol, hsuite] at hpb

theorem stepped_header {f : Frame} {above : Context} {run others : List Branch}
    (h : t.Holds (Context.fill (f :: above) run ++ others))
    (hfull : ∀ b ∈ run, b.shape.Full)
    (hperm : forest.Perm (Context.fill (f :: above) run ++ others))
    (hspares : (∀ b ∈ forest, b.shape.Walled) → ∀ n ∈ run.map Branch.id, t.symbol? n ≠ some .suite) :
    Stepped keep t forest (collapseHeader keep t (.ok (run.map Branch.id))).tree := by
  rw [collapseHeader, misses_eq_clear keep (fun b hb => ⟨_, h.run_grows b hb⟩) h.run_nodup hfull]
  split
  · next hclear =>
    cases run with
    | nil => exact .stay
    | cons head rest =>
      have hhead := hfull head (by simp)
      obtain ⟨x, xs, hx⟩ := List.exists_cons_of_ne_nil (Branch.leaves_ne_nil_of_full hhead)
      have htokens : (Branch.leavesOfAll (head :: rest)).map Prod.snd =
          x.2 :: (xs ++ Branch.leavesOfAll rest).map Prod.snd := by
        simp [Branch.leavesOfAll, hx]
      obtain ⟨u, hok, hsize, hu, hparent⟩ := collapseRun_siblings h hhead htokens
      rw [hok]
      exact .fold hperm (.siblings htokens (htokens ▸ hclear)) hu hsize hparent hspares
  · exact .stay

theorem stepped_matchHeader {f : Frame} {above : Context} {x : Branch} {others : List Branch}
    (h : t.Holds (Context.fill (f :: above) [x] ++ others)) (hfull : ∀ b ∈ forest, b.shape.Full)
    (hperm : forest.Perm (Context.fill (f :: above) [x] ++ others))
    (hmatch : t.symbol? f.id = some .matchStmt) :
    Stepped keep t forest (collapseHeader keep t (matchHeader t f.id x.id)).tree := by
  have hfill : Context.fill (f :: above) [x] =
      Context.fill (⟨f.id, f.symbol, [], x :: f.after⟩ :: above) f.before := by
    simp [Context.fill]
  rw [matchHeader, h.takeWhile_children]
  split
  · exact .stay
  · rw [hfill] at h hperm
    refine stepped_header h (Context.full_of_fill fun b hb =>
      hfull b (hperm.symm.subset (List.mem_append_left _ hb))) hperm fun hwalled => ?_
    rw [h.symbol?_parent] at hmatch
    have hwalls := (Context.walled_of_fill fun b hb =>
      hwalled b (hperm.symm.subset (List.mem_append_left _ hb))).2 _ rfl
    rw [List.forall_mem_map]
    intro b hb
    rw [(h.run_grows b hb).symbol?_eq]
    exact hwalls.suites (.inr (Option.some.inj hmatch)) _ (List.mem_map_of_mem (by simp [hb]))

theorem stepped_keyword {f : Frame} {above : Context} {x : Branch} {pre header others : List Branch}
    (h : t.Holds (Context.fill (f :: above) [x] ++ others)) (hfull : ∀ b ∈ forest, b.shape.Full)
    (hperm : forest.Perm (Context.fill (f :: above) [x] ++ others))
    (hx : x.shape.symbol? = some .suite) (hbefore : f.before = pre ++ header)
    (hspares : ∀ n ∈ header.map Branch.id, t.symbol? n ≠ some .suite) {key : NodeId}
    (hprev : t.prevSibling? f.id = some key) (hasync : t.isToken key .async = true) :
    Stepped keep t forest (collapseHeader keep t (.ok (key :: header.map Branch.id))).tree := by
  have howner : t.Holds (Context.fill above [.node f.id f.symbol (f.before ++ [x] ++ f.after)] ++
      others) := h
  cases above with
  | nil =>
    have hnone : t.parent? f.id = none := howner.parent? (List.mem_singleton_self _)
    simp [Tree.prevSibling?, Tree.siblings?, hnone] at hprev
  | cons g above =>
    have hlast : g.before.getLast?.map Branch.id = some key := howner.prevSibling?.symm.trans hprev
    obtain ⟨k, hk, rfl⟩ := Option.map_eq_some_iff.mp hlast
    obtain ⟨gpre, hgpre⟩ := List.getLast?_eq_some_iff.mp hk
    have hfill : Context.fill (f :: g :: above) [x] =
        Context.fill (⟨g.id, g.symbol, gpre, g.after⟩ :: above)
          [k, .node f.id f.symbol (pre ++ header ++ x :: f.after)] := by
      simp [Context.fill, hbefore, hgpre]
    rw [hfill] at h hperm
    cases k with
    | node id symbol parts =>
      have hnone := (h.run_grows _ List.mem_cons_self).leaf?_node
      simp [isToken, kind?, Branch.id, hnone] at hasync
    | leaf key token =>
      have hmem : Branch.node f.id f.symbol (pre ++ header ++ x :: f.after) ∈
          [.leaf key token, .node f.id f.symbol (pre ++ header ++ x :: f.after)] := by simp
      have hfullNode := Context.full_of_fill
        (fun b hb => hfull b (hperm.symm.subset (List.mem_append_left others hb))) _ hmem
      have hheader : ∀ b ∈ header, b.shape.Full := fun b hb =>
        (Branch.full_of_mem hfullNode).2 b (by simp [hb])
      rw [collapseHeader, Branch.id, misses_keyword keep h hheader]
      split
      · next hclear =>
        obtain ⟨u, hok, hsize, hu, hparent⟩ := collapseRun_keyword h
        rw [hok]
        have hkey : t.symbol? key ≠ some .suite := by
          simp [(h.run_grows _ List.mem_cons_self).symbol?_leaf]
        exact .fold hperm (.keyword ⟨x, rfl, hx⟩ hclear) hu hsize hparent
          fun _ => List.forall_mem_cons.mpr ⟨hkey, hspares⟩
      · exact .stay

theorem stepped_suiteHeader {c : Context} {x : Branch} {others : List Branch}
    (h : t.Holds (c.fill [x] ++ others)) (hfull : ∀ b ∈ forest, b.shape.Full)
    (hperm : forest.Perm (c.fill [x] ++ others)) (hx : x.shape.symbol? = some .suite)
    (newline : NodeId) :
    Stepped keep t forest (collapseHeader keep t (suiteHeader t x.id newline)).tree := by
  cases c with
  | nil =>
    have hparent : t.parent? x.id = none := h.parent? (by simp)
    rw [suiteHeader, hparent]
    exact .stay
  | cons f above =>
    have hparent : t.parent? x.id = some f.id := h.parent? (by simp)
    obtain ⟨pre, header, hbefore, hheader, hspares⟩ := exists_headerBefore t f.before
    have hfill : Context.fill (f :: above) [x] =
        Context.fill (⟨f.id, f.symbol, pre, x :: f.after⟩ :: above) header := by
      simp [Context.fill, hbefore]
    have hsiblings : Stepped keep t forest
        (collapseHeader keep t (.ok (header.map Branch.id))).tree := by
      rw [hfill] at h hperm
      exact stepped_header h (Context.full_of_fill fun b hb =>
        hfull b (hperm.symm.subset (List.mem_append_left _ hb))) hperm fun _ => hspares
    rw [suiteHeader, hparent, h.siblings?]
    simp only [hheader]
    split
    · exact .stay
    · next prev hprev _ =>
      split
      · next hasync => exact stepped_keyword h hfull hperm hx hbefore hspares hprev hasync
      · exact hsiblings
    · exact hsiblings

theorem stepped_logicalLine (h : t.Holds forest) (hfull : ∀ b ∈ forest, b.shape.Full)
    (hn : n ∈ Branch.idsOfAll forest) (hkind : t.isToken n .newline = true) :
    Stepped keep t forest (logicalLine keep t n).tree := by
  obtain ⟨c, x, others, hperm, rfl⟩ := Context.exists_place hn
  have hplace := h.of_perm hperm
  rw [logicalLine]
  split
  · exact .stay
  · cases c with
    | nil =>
      have hparent : t.parent? x.id = none := hplace.parent? (by simp)
      rw [hparent]
      exact .stay
    | cons f above =>
      have hparent : t.parent? x.id = some f.id := hplace.parent? (by simp)
      rw [hparent]
      simp only
      split
      · next hmatch => exact stepped_matchHeader hplace hfull hperm hmatch
      · next hsuite =>
        rw [hplace.symbol?_parent] at hsuite
        exact @stepped_suiteHeader keep t forest above _ others hplace hfull hperm hsuite x.id
      · have htop := mem_ids_furthestEndingWith h hn
        refine stepped_node h hfull ?_ fun hwalled => ?_
        · simp only [closedBy]
          split
          · next parent htopParent =>
            split
            · exact mem_ids_of_parent? h htop htopParent
            · exact htop
          · exact htop
        · have hclosed := symbol?_furthestEndingWith h hwalled hn hkind
          simp only [closedBy]
          split
          · split
            · next hdecorators =>
              simp only [isSymbol, Bool.and_eq_true, beq_iff_eq] at hdecorators
              rw [hdecorators.2]
              exact nofun
            · exact hclosed
          · exact hclosed

end Steps

end Collapse

end LineScope
