import LineScope.Proofs.Collapse.Persistence
import LineScope.Proofs.Tree.Numbering

/-!
# Kept lines stay

A leaf with a kept line is never folded. Whether a region is folded is decided from the lines of its
first and its last leaf, and these enclose the lines of every leaf between them as long as the lines
ascend. Verbatim leaves take the line of the first leaf they replace, so the lines go on ascending.
-/
namespace LineScope

namespace Collapse

open LineScope.Tree

/-- Lines ascend, and leaves numbered below `bound` end before the next one starts. -/
def Ascending (bound : NodeId) (leaves : List (NodeId × Leaf)) : Prop :=
  leaves.Pairwise fun a b => a.2.line ≤ b.2.line ∧ (a.1 < bound → a.2.endLine ≤ b.2.line)

/-- The leaves of the root before and after one step. -/
inductive Thins (keep : LineSet) (new : NodeId) :
    List (NodeId × Leaf) → List (NodeId × Leaf) → Prop
  | refl (leaves : List (NodeId × Leaf)) : Thins keep new leaves leaves
  | drop {left inner region right : List (NodeId × Leaf)} {first : NodeId} {leaf : Leaf}
      {text : String} (clear : clear keep (leaf :: region.map Prod.snd) = true) :
      Thins keep new (left ++ (first, leaf) :: (inner ++ region ++ right))
        (left ++ (new, verbatim leaf text) :: (inner ++ right))

section Runs

variable {keep : LineSet} {new : NodeId}

theorem Thins.siblings {run : List Branch} {leaf : Leaf} {more : List Leaf} (text : String)
    (tokens : (Branch.leavesOfAll run).map Prod.snd = leaf :: more)
    (clear : clear keep (leaf :: more) = true) (left right : List (NodeId × Leaf)) :
    Thins keep new (left ++ Branch.leavesOfAll run ++ right)
      (left ++ Branch.leavesOfAll [.leaf new (verbatim leaf text)] ++ right) := by
  obtain ⟨⟨first, token⟩, region, hrun⟩ : ∃ x xs, Branch.leavesOfAll run = x :: xs := by
    refine List.exists_cons_of_ne_nil fun hnil => ?_
    simp [hnil] at tokens
  simp only [hrun, List.map_cons, List.cons.injEq] at tokens
  rw [← tokens.1, ← tokens.2] at clear
  have hthins := @Thins.drop keep new left [] region right first token text clear
  rw [hrun]
  simpa [Branch.leavesOfAll, Branch.leaves, tokens.1] using hthins

/-- An `async` and the header behind it give way to a verbatim leaf. -/
theorem Thins.keyword {key owner : NodeId} {token : Leaf} {symbol : Symbol}
    {pre header post : List Branch} (text : String)
    (clear : clear keep (token :: (Branch.leavesOfAll header).map Prod.snd) = true)
    (left right : List (NodeId × Leaf)) :
    Thins keep new
      (left ++ Branch.leavesOfAll [.leaf key token, .node owner symbol (pre ++ header ++ post)] ++
        right)
      (left ++ Branch.leavesOfAll [.leaf new (verbatim token text), .node owner symbol (pre ++ post)]
        ++ right) := by
  have hthins := @Thins.drop keep new left (Branch.leavesOfAll pre) (Branch.leavesOfAll header)
    (Branch.leavesOfAll post ++ right) key token text clear
  simpa [Branch.leavesOfAll, Branch.leaves] using hthins

end Runs

section Folds

variable {keep : LineSet} {new : NodeId} {gone : List NodeId} {forest forest' : List Branch}

/-- A fold changes what fills one gap, and what leaves it stands loose afterwards. -/
theorem Folds.exists_gap (h : Folds keep new gone forest forest') :
    ∃ (f : Frame) (above : Context) (run run' loose others : List Branch),
      forest = Context.fill (f :: above) run ++ others ∧
      forest' = Context.fill (f :: above) run' ++ (loose ++ others) ∧
      gone ⊆ Branch.idsOfAll loose ∧
      ∀ left right, Thins keep new (left ++ Branch.leavesOfAll run ++ right)
        (left ++ Branch.leavesOfAll run' ++ right) := by
  cases h with
  | @siblings f above head rest others leaf more tokens clear =>
    refine ⟨f, above, head :: rest, _, head.bare :: rest, others, rfl, rfl, ?_, ?_⟩
    · rw [Branch.idsOfAll, Branch.bare_ids]
      exact (Branch.map_id_sublist_idsOfAll (head :: rest)).subset
    · exact .siblings _ tokens clear
  | @keyword f above key owner token symbol pre header post others suite clear =>
    refine ⟨f, above, _, _, .leaf key token.bare :: header, others, rfl, rfl, ?_, ?_⟩
    · exact (Branch.map_id_sublist_idsOfAll (.leaf key token.bare :: header)).subset
    · exact .keyword _ clear

theorem Folds.thins (h : Folds keep new gone forest forest')
    (hnodup : (Branch.idsOfAll forest').Nodup) {root : Branch} (hroot : root ∈ forest) :
    ∃ root' ∈ forest', root'.id = root.id ∧ Thins keep new root.leaves root'.leaves ∧
      ∀ n ∈ gone, n ∉ root'.ids := by
  obtain ⟨f, above, run, run', loose, others, rfl, rfl, hgone, hthins⟩ := h.exists_gap
  rw [Branch.idsOfAll_append, Branch.idsOfAll_append, List.nodup_append, List.nodup_append]
    at hnodup
  obtain ⟨-, ⟨-, -, hothers⟩, hfill⟩ := hnodup
  rcases List.mem_append.mp hroot with hroot | hroot
  · obtain ⟨top, htop⟩ := Context.exists_fill_cons f above
    obtain ⟨b, hb, hbtop⟩ := htop run
    obtain ⟨b', hb', hbtop'⟩ := htop run'
    rw [hb, List.mem_singleton] at hroot
    refine ⟨b', by simp [hb'], by rw [hroot, hbtop, hbtop'], ?_, fun n hn hmem => ?_⟩
    · have hleaves := Context.leavesOfAll_fill (f :: above) run
      have hleaves' := Context.leavesOfAll_fill (f :: above) run'
      rw [hb, Branch.leavesOfAll, Branch.leavesOfAll, List.append_nil] at hleaves
      rw [hb', Branch.leavesOfAll, Branch.leavesOfAll, List.append_nil] at hleaves'
      rw [hroot, hleaves, hleaves']
      exact hthins _ _
    · refine hfill n ?_ n (List.mem_append_left _ (hgone hn)) rfl
      simpa [hb', Branch.idsOfAll] using hmem
  · refine ⟨root, by simp [hroot], rfl, .refl _, fun n hn hmem => ?_⟩
    exact hothers n (hgone hn) n (Branch.ids_subset_idsOfAll hroot hmem) rfl

end Folds

section Thins

variable {keep : LineSet} {new bound : NodeId} {leaves leaves' : List (NodeId × Leaf)}

theorem Thins.ascending (h : Thins keep new leaves leaves') (hnew : bound ≤ new)
    (hleaves : Ascending bound leaves) : Ascending bound leaves' := by
  cases h with
  | refl => exact hleaves
  | @drop left inner region right first leaf text clear =>
    rw [Ascending, List.pairwise_append, List.pairwise_cons] at hleaves ⊢
    obtain ⟨hleft, ⟨hfirst, hrest⟩, hcross⟩ := hleaves
    have hsub : (inner ++ right).Sublist (inner ++ region ++ right) := by simp
    refine ⟨hleft, ⟨fun b hb => ⟨(hfirst b (hsub.subset hb)).1, fun hlt => ?_⟩,
      hrest.sublist hsub⟩, fun a ha b hb => ?_⟩
    · exact absurd hlt (Nat.not_lt.mpr hnew)
    · rcases List.mem_cons.mp hb with rfl | hb
      · exact hcross a ha (first, leaf) (by simp)
      · exact hcross a ha b (List.mem_cons_of_mem _ (hsub.subset hb))

theorem Ascending.line_le {first x : NodeId × Leaf} {rest : List (NodeId × Leaf)}
    (h : Ascending bound (first :: rest)) (hx : x ∈ first :: rest) : first.2.line ≤ x.2.line := by
  rcases List.mem_cons.mp hx with rfl | hx
  · exact Nat.le_refl _
  · exact ((List.pairwise_cons.mp h).1 x hx).1

theorem Ascending.endLine_le {last x : NodeId × Leaf} {rest : List (NodeId × Leaf)}
    (h : Ascending bound (rest ++ [last])) (hx : x ∈ rest ++ [last]) (hbound : x.1 < bound) :
    x.2.endLine ≤ last.2.endLine := by
  rcases List.mem_append.mp hx with hx | hx
  · have hpair := (List.pairwise_append.mp h).2.2 x hx last (by simp)
    exact (hpair.2 hbound).trans last.2.line_le_endLine
  · rw [List.mem_singleton.mp hx]

/-- The lines of a region that is clear are not kept, and no leaf of it has a kept line. -/
theorem not_contains_of_clear {x first : NodeId × Leaf} {rest : List (NodeId × Leaf)}
    (h : Ascending bound (first :: rest))
    (hclear : clear keep (first.2 :: rest.map Prod.snd) = true) (hx : x ∈ first :: rest)
    (hbound : x.1 < bound) {line : Nat} (hline : x.2.line ≤ line) (hend : line ≤ x.2.endLine) :
    keep.contains line = false := by
  obtain ⟨init, last, hlast⟩ := (List.eq_nil_or_concat (first :: rest)).resolve_left (by simp)
  rw [List.concat_eq_append] at hlast
  have hfinal : (first.2 :: rest.map Prod.snd).getLast? = some last.2 := by
    rw [← List.map_cons, hlast, List.map_append, List.map_singleton, List.getLast?_concat]
  have hfrom := h.line_le hx
  rw [hlast] at h hx
  have hto := h.endLine_le hx hbound
  rw [Bool.eq_false_iff]
  intro hkeep
  have hkept := (@clear_eq_false_iff keep _ _ _ List.head?_cons hfinal).mpr
    ⟨line, hkeep, hfrom.trans hline, hend.trans hto⟩
  rw [hkept] at hclear
  exact Bool.noConfusion hclear

theorem Thins.mem (h : Thins keep new leaves leaves') (hleaves : Ascending bound leaves)
    {x : NodeId × Leaf} (hx : x ∈ leaves) (hbound : x.1 < bound) {line : Nat}
    (hkeep : keep.contains line = true) (hline : x.2.line ≤ line) (hend : line ≤ x.2.endLine) :
    x ∈ leaves' := by
  cases h with
  | refl => exact hx
  | @drop left inner region right first leaf text clear =>
    have hregion : Ascending bound ((first, leaf) :: region) := by
      refine List.Pairwise.sublist ?_ hleaves
      refine List.Sublist.trans ?_ (List.sublist_append_right _ _)
      simp
    have hout : x ∉ (first, leaf) :: region := fun hmem => by
      rw [not_contains_of_clear hregion clear hmem hbound hline hend] at hkeep
      simp at hkeep
    simp only [List.mem_append, List.mem_cons] at hx hout ⊢
    tauto

end Thins

def HasKept (keep : LineSet) (leaf : Leaf) : Prop :=
  ∃ line, keep.contains line = true ∧ leaf.line ≤ line ∧ line ≤ leaf.endLine

/-- What every step keeps: the leaves of `root₀` that have a kept line are leaves of the root, below
the parents they had in `t₀`. The nodes of `listed`, which are still to be visited, are somewhere in
the store, but they may be loose. -/
structure Keeps (keep : LineSet) (t₀ : Tree) (root₀ : Branch) (listed : List NodeId) (t : Tree)
    (forest : List Branch) (root : Branch) : Prop where
  holds : t.Holds forest
  full : ∀ b ∈ forest, b.shape.Full
  root_mem : root ∈ forest
  root_id : root.id = rootId
  listed_mem : ∀ n ∈ listed, n ∈ Branch.idsOfAll forest
  size_le : t₀.size ≤ t.size
  ascending : Ascending t₀.size root.leaves
  leaf_mem : ∀ x ∈ root₀.leaves, HasKept keep x.2 → x ∈ root.leaves
  parent? : ∀ x ∈ root₀.leaves, HasKept keep x.2 → t.parent? x.1 = t₀.parent? x.1

section Keeps

variable {keep : LineSet} {t₀ t u : Tree} {root₀ root : Branch} {listed : List NodeId}
  {forest : List Branch}

theorem Keeps.stepped (h : Keeps keep t₀ root₀ listed t forest root)
    (hold : ∀ x ∈ root₀.leaves, x.1 < t₀.size) (hstep : Stepped keep t forest u) :
    ∃ forest' root', Keeps keep t₀ root₀ listed u forest' root' := by
  cases hstep with
  | stay => exact ⟨forest, root, h⟩
  | @fold u gone before after perm folds holds size parent? spares =>
    obtain ⟨root', hmem, hid, hthins, hgone⟩ := folds.thins holds.nodup (perm.subset h.root_mem)
    have hleaf : ∀ x ∈ root₀.leaves, HasKept keep x.2 → x ∈ root'.leaves := by
      rintro x hx ⟨line, hline⟩
      exact hthins.mem h.ascending (h.leaf_mem x hx ⟨line, hline⟩) (hold x hx) hline.1 hline.2.1
        hline.2.2
    refine ⟨after, root', holds, ?_, hmem, hid.trans h.root_id, fun n hn => ?_, ?_, ?_, hleaf,
      fun x hx hkept => ?_⟩
    · exact folds.full fun b hb => h.full b (perm.symm.subset hb)
    · exact folds.subset_ids ((Branch.idsOfAll_perm perm).subset (h.listed_mem n hn))
    · exact h.size_le.trans (by omega)
    · exact hthins.ascending h.size_le h.ascending
    · have hin : x.1 ∈ root'.ids :=
        root'.leaves_map_fst_sublist.subset (List.mem_map_of_mem (hleaf x hx hkept))
      rw [parent? x.1 (Nat.ne_of_lt ((hold x hx).trans_le h.size_le)) fun hn => hgone _ hn hin]
      exact h.parent? x hx hkept

theorem Keeps.relist {listed' : List NodeId} (h : Keeps keep t₀ root₀ listed t forest root)
    (hlisted : ∀ n ∈ listed', n ∈ root.ids) : Keeps keep t₀ root₀ listed' t forest root :=
  { h with listed_mem := fun n hn => Branch.ids_subset_idsOfAll h.root_mem (hlisted n hn) }

end Keeps

theorem keeps_start {t : Tree} (hwf : t.WellFormed)
    (hfull : ∀ n < t.size, t.isAttached n = true → (t.symbol? n).isSome → t.children n ≠ [])
    (hlines : Leaf.LinesAscend (t.tokens [rootId])) (keep : LineSet) :
    ∃ root : Branch, (∀ n, t.isAttached n = true → n ∈ root.ids) ∧
      Keeps keep t root [] t [root] root := by
  obtain ⟨root, hid, hholds⟩ := hwf.exists_holds
  have hgrows := hholds.grows root (by simp)
  have hattached (n : NodeId) : t.isAttached n = true ↔ n ∈ root.ids :=
    hholds.isAttached_iff (by simp) hid
  have htokens : t.tokens [rootId] = root.leaves.map Prod.snd := by
    have heq := @tokens_eq t [root] (by simpa using ⟨none, hgrows⟩) hholds.nodup
    simpa [hid, Branch.leavesOfAll] using heq
  refine ⟨root, fun n => (hattached n).mp, hholds, ?_, by simp, hid, by simp, Nat.le_refl _, ?_,
    fun x hx _ => hx, fun _ _ _ => rfl⟩
  · intro b hb
    rw [List.mem_singleton.mp hb]
    exact hgrows.full fun n hn => hfull n (hgrows.lt_size hn) ((hattached n).mpr hn)
  · rw [htokens] at hlines
    refine (List.pairwise_map.mp hlines.pairwise).imp fun {a b} hab => ⟨?_, fun _ => hab⟩
    exact a.2.line_le_endLine.trans hab

theorem Keeps.standing {keep : LineSet} {t₀ t : Tree} {root₀ root : Branch} {listed : List NodeId}
    {forest : List Branch} (h : Keeps keep t₀ root₀ listed t forest root) :
    Standing listed t forest root :=
  ⟨h.holds, h.full, h.root_mem, h.root_id, h.listed_mem⟩

theorem Keeps.collapseUnchanged {t₀ t : Tree} {root₀ root : Branch} {listed : List NodeId}
    {forest : List Branch} {ranges : List LineRange}
    (h : Keeps (.ofRanges ranges) t₀ root₀ listed t forest root)
    (hold : ∀ x ∈ root₀.leaves, x.1 < t₀.size) (wholeStatements : Bool) :
    ∃ listed' forest' root', Keeps (.ofRanges ranges) t₀ root₀ listed'
      (t.collapseUnchanged ranges wholeStatements).tree forest' root' := by
  have hpersists : Persists (.ofRanges ranges) (Keeps (.ofRanges ranges) t₀ root₀) :=
    ⟨Keeps.standing, fun h hstep => h.stepped hold hstep, fun h hlisted => h.relist hlisted⟩
  exact hpersists.collapseUnchanged h wholeStatements

end Collapse

/-- No requested line is swallowed: a leaf with a line of the ranges stays attached, below the same
parent and with the same token, however the passes end. -/
theorem Tree.collapseUnchanged_keeps_leaf (t : Tree) (hwf : t.WellFormed)
    (hfull : ∀ n < t.size, t.isAttached n = true → (t.symbol? n).isSome → t.children n ≠ [])
    (hlines : Leaf.LinesAscend (t.tokens [rootId])) (ranges : List LineRange)
    (wholeStatements : Bool) {n : NodeId} {leaf : Leaf} (hattached : t.isAttached n = true)
    (hleaf : t.leaf? n = some leaf)
    (hrequested : ∃ range ∈ ranges, ∃ line, range.contains line = true ∧ leaf.line ≤ line ∧
      line ≤ leaf.endLine) :
    (t.collapseUnchanged ranges wholeStatements).tree.isAttached n = true ∧
      (t.collapseUnchanged ranges wholeStatements).tree.parent? n = t.parent? n ∧
      (t.collapseUnchanged ranges wholeStatements).tree.leaf? n = some leaf := by
  obtain ⟨root, hroot, hstart⟩ :=
    Collapse.keeps_start hwf hfull hlines (LineSet.ofRanges ranges)
  have hgrows := hstart.holds.grows root (by simp)
  have hold : ∀ x ∈ root.leaves, x.1 < t.size := fun x hx =>
    hgrows.lt_size (root.leaves_map_fst_sublist.subset (List.mem_map_of_mem hx))
  have hmem : (n, leaf) ∈ root.leaves := by
    have hin : n ∈ root.leaves.map Prod.fst := by
      rw [← hgrows.filter_ids, List.mem_filter]
      exact ⟨hroot n hattached, by simp [hleaf]⟩
    obtain ⟨⟨m, token⟩, hx, rfl⟩ := List.mem_map.mp hin
    rwa [Option.some.inj (hleaf.symm.trans (hgrows.leaf?_of_mem hx))]
  have hkept : Collapse.HasKept (LineSet.ofRanges ranges) leaf := by
    obtain ⟨range, hrange, line, hline, hlines⟩ := hrequested
    refine ⟨line, ?_, hlines⟩
    rw [LineSet.contains_ofRanges, List.any_eq_true]
    exact ⟨range, hrange, hline⟩
  obtain ⟨listed, forest, root', h⟩ := hstart.collapseUnchanged hold wholeStatements
  have hleaf' := h.leaf_mem _ hmem hkept
  refine ⟨?_, h.parent? _ hmem hkept, (h.holds.grows root' h.root_mem).leaf?_of_mem hleaf'⟩
  rw [h.holds.isAttached_iff h.root_mem h.root_id]
  exact root'.leaves_map_fst_sublist.subset (List.mem_map_of_mem hleaf')

/-- Two statements on a line each; the second one's name is node 5. -/
def twoLines : Tree := .ofShapes .fileInput
  [.node .simpleStmt [.leaf ⟨.name, "", "a", 1⟩, .leaf ⟨.newline, "", "\n", 1⟩],
    .node .simpleStmt [.leaf ⟨.name, "", "b", 2⟩, .leaf ⟨.newline, "", "\n", 2⟩],
    .leaf ⟨.endMarker, "", "", 3⟩]

theorem twoLines_keeps_second :
    (twoLines.collapseUnchanged [⟨2, 2⟩] true).tree.isAttached 5 = true ∧
      (twoLines.collapseUnchanged [⟨2, 2⟩] true).tree.parent? 5 = twoLines.parent? 5 ∧
      (twoLines.collapseUnchanged [⟨2, 2⟩] true).tree.leaf? 5 = some ⟨.name, "", "b", 2⟩ := by
  have hlines : Leaf.LinesAscend (twoLines.tokens [rootId]) := by
    unfold Leaf.LinesAscend
    decide +kernel
  exact twoLines.collapseUnchanged_keeps_leaf (Tree.ofShapes_wellFormed _ _) (by decide +kernel)
    hlines _ _ (by decide +kernel) (by decide +kernel) ⟨⟨2, 2⟩, by simp, 2, by decide +kernel⟩

end LineScope
