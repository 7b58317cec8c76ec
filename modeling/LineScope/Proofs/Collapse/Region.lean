import LineScope.Collapse.Outcome
import LineScope.Proofs.Tree.Edits

/-!
# Collapsing a run in its place

The effect of `Collapse.replaceRun` on the forest that a store holds. The run leaves its context and
becomes a forest of its own; in its place stands one verbatim leaf with the next number.
-/
namespace LineScope

namespace Leaf

theorem line_le_endLine (leaf : Leaf) : leaf.line ≤ leaf.endLine := by
  unfold Leaf.endLine
  split
  · exact Nat.le_refl _
  · exact Nat.le_add_right _ _

/-- Each token starts no earlier than the line on which the one before it ends. -/
def LinesAscend (tokens : List Leaf) : Prop := tokens.IsChain fun a b => a.endLine ≤ b.line

theorem LinesAscend.pairwise {tokens : List Leaf} (h : LinesAscend tokens) :
    tokens.Pairwise fun a b => a.endLine ≤ b.line := by
  have : Trans (fun a b : Leaf => a.endLine ≤ b.line) (fun a b : Leaf => a.endLine ≤ b.line)
      (fun a b : Leaf => a.endLine ≤ b.line) :=
    ⟨fun {_ b _} hab hbc => hab.trans (b.line_le_endLine.trans hbc)⟩
  exact List.IsChain.pairwise h

end Leaf

namespace Collapse

open LineScope.Tree

/-- The verbatim leaf for a run of which `leaf` is the first, with the text of the run after the
trivia of that leaf. -/
def verbatim (leaf : Leaf) (text : String) : Leaf :=
  ⟨.verbatim, leaf.trivia, stripTerminator text, leaf.line⟩

section Runs

variable {t : Tree} {f : Frame} {above : Context} {head : Branch} {rest others : List Branch}
  {first : NodeId} {leaf : Leaf}

theorem detachAll_siblings {id : NodeId} {symbol : Symbol} {before after run : List Branch}
    (h : t.Holds (Context.fill (⟨id, symbol, before, after⟩ :: above) run ++ others)) :
    ∃ u, (detachAll t (run.map Branch.id)).2 = u ∧ u.size = t.size ∧
      u.Holds (Context.fill (⟨id, symbol, before, after⟩ :: above) [] ++ (run ++ others)) ∧
      ∀ n, n ∉ run.map Branch.id → u.parent? n = t.parent? n := by
  induction run generalizing t others with
  | nil => exact ⟨t, rfl, rfl, by simpa using h, fun _ _ => rfl⟩
  | cons x rest ih =>
    have hx : t.Holds (Context.fill (⟨id, symbol, before, rest ++ after⟩ :: above) [x] ++ others) := by
      simpa [Context.fill] using h
    obtain ⟨u, hremove, hsize, hu, hparent⟩ := hx.remove?
    have hrest : u.Holds (Context.fill (⟨id, symbol, before, after⟩ :: above) rest ++
        (x :: others)) := by
      simpa [Context.fill] using hu
    obtain ⟨v, hdetach, hvsize, hv, hvparent⟩ := ih hrest
    refine ⟨v, ?_, hvsize.trans hsize, hv.of_perm ?_, fun n hn => ?_⟩
    · simp only [List.map_cons, detachAll, hremove]
      exact hdetach
    · exact (List.perm_middle.append_left _)
    · rw [List.map_cons, List.mem_cons, not_or] at hn
      rw [hvparent n hn.2, hparent n hn.1]

/-- Once a run is detached, the verbatim leaf takes its place. -/
theorem replaceRun_of_detachAll {n : NodeId} {ns : List NodeId} {cut : Tree}
    (hleaf : t.leaf? first = some leaf)
    (hdetach : detachAll (t.mapLeaf first Leaf.bare) (n :: ns) = (some f.before.length, cut))
    (hcut : cut.Holds (Context.fill (f :: above) [] ++ others)) :
    ∃ u, replaceRun t f.id n ns first = ⟨u, .ok true⟩ ∧ u.size = cut.size + 1 ∧
      u.Holds (Context.fill (f :: above) [.leaf cut.size
        (verbatim leaf ((t.mapLeaf first Leaf.bare).text (n :: ns)))] ++ others) ∧
      ∀ m, m ≠ cut.size → u.parent? m = cut.parent? m := by
  obtain ⟨u, hinsert, hsize, hu, hparent⟩ := hcut.insertChild_alloc
    (verbatim leaf ((t.mapLeaf first Leaf.bare).text (n :: ns)))
  refine ⟨u, ?_, hsize, hu, hparent⟩
  have hbare : (t.mapLeaf first fun leaf => { leaf with trivia := "" }) =
      t.mapLeaf first Leaf.bare := rfl
  rw [verbatim] at hinsert
  simp only [replaceRun, hleaf, hbare, hdetach, hinsert]

/-- A run of siblings gives way to one verbatim leaf and becomes a forest of its own. -/
theorem replaceRun_siblings
    (h : t.Holds (Context.fill (f :: above) (head :: rest) ++ others)) (hfull : head.shape.Full)
    (hfirst : head.leaves.head? = some (first, leaf)) :
    ∃ u, replaceRun t f.id head.id (rest.map Branch.id) first = ⟨u, .ok true⟩ ∧
      u.size = t.size + 1 ∧
      u.Holds (Context.fill (f :: above) [.leaf t.size (verbatim leaf
        (Leaf.render ((Branch.leavesOfAll (head.bare :: rest)).map Prod.snd)))] ++
        (head.bare :: rest ++ others)) ∧
      ∀ n, n ≠ t.size → n ∉ (head :: rest).map Branch.id → u.parent? n = t.parent? n := by
  have hbare := h.mapLeaf_bare hfull hfirst
  set bare := t.mapLeaf first Leaf.bare with hbaredef
  have hbsize : bare.size = t.size := size_mapLeaf ..
  have htext : bare.text (head.id :: rest.map Branch.id) =
      Leaf.render ((Branch.leavesOfAll (head.bare :: rest)).map Prod.snd) := by
    rw [← head.bare_id, ← List.map_cons, Tree.text,
      tokens_eq (fun b hb => ⟨_, hbare.run_grows b hb⟩) hbare.run_nodup]
  have hhead : bare.Holds (Context.fill (⟨f.id, f.symbol, f.before, rest ++ f.after⟩ :: above)
      [head.bare] ++ others) := by
    simpa [Context.fill] using hbare
  obtain ⟨mid, hremove, hmsize, hmid, hmparent⟩ := hhead.remove?
  obtain ⟨cut, hdetach, hcsize, hcut, hcparent⟩ :=
    @detachAll_siblings mid above (head.bare :: others) f.id f.symbol f.before f.after rest
      (by simpa [Context.fill] using hmid)
  have hall : detachAll bare (head.id :: rest.map Branch.id) = (some f.before.length, cut) := by
    rw [← head.bare_id]
    simp [detachAll, hremove, hdetach]
  obtain ⟨u, hok, husize, hu, huparent⟩ := replaceRun_of_detachAll
    ((h.run_grows head (by simp)).leaf?_of_mem (List.mem_of_mem_head? hfirst)) hall hcut
  have hsize : cut.size = t.size := by omega
  rw [hsize] at husize hu huparent
  rw [htext] at hu
  refine ⟨u, hok, husize, hu.of_perm (List.perm_middle.append_left _), fun n hn hrun => ?_⟩
  rw [List.map_cons, List.mem_cons, not_or, ← head.bare_id] at hrun
  rw [huparent n hn, hcparent n hrun.2, hmparent n hrun.1, hbaredef, parent?_mapLeaf]

/-- A token and a run of nodes inside the branch right after it give way to one verbatim leaf in the
place of the token. -/
theorem replaceRun_keyword {key owner : NodeId} {token : Leaf} {symbol : Symbol}
    {pre header post : List Branch}
    (h : t.Holds (Context.fill (f :: above)
      [.leaf key token, .node owner symbol (pre ++ header ++ post)] ++ others)) :
    ∃ u, replaceRun t f.id key (header.map Branch.id) key = ⟨u, .ok true⟩ ∧
      u.size = t.size + 1 ∧
      u.Holds (Context.fill (f :: above) [.leaf t.size (verbatim token
        (Leaf.render (token.bare :: (Branch.leavesOfAll header).map Prod.snd))),
        .node owner symbol (pre ++ post)] ++ (.leaf key token.bare :: header ++ others)) ∧
      ∀ n, n ≠ t.size → n ∉ key :: header.map Branch.id → u.parent? n = t.parent? n := by
  have hbare := h.mapLeaf_bare (Shape.Full.leaf token) rfl
  set bare := t.mapLeaf key Leaf.bare with hbaredef
  have hbsize : bare.size = t.size := size_mapLeaf ..
  have hkey : bare.Holds (Context.fill (⟨f.id, f.symbol, f.before,
      .node owner symbol (pre ++ header ++ post) :: f.after⟩ :: above) [.leaf key token.bare] ++
      others) := by
    simpa [Context.fill, Branch.bare] using hbare
  have hheader : bare.Holds (Context.fill (⟨owner, symbol, pre, post⟩ ::
      ⟨f.id, f.symbol, f.before ++ [.leaf key token.bare], f.after⟩ :: above) header ++ others) := by
    simpa [Context.fill, Branch.bare] using hbare
  have htext : bare.text (key :: header.map Branch.id) =
      Leaf.render (token.bare :: (Branch.leavesOfAll header).map Prod.snd) := by
    have hids : key :: header.map Branch.id = (Branch.leaf key token.bare :: header).map Branch.id :=
      rfl
    rw [hids, Tree.text, tokens_eq]
    · rfl
    · intro b hb
      rcases List.mem_cons.mp hb with rfl | hb
      · exact ⟨_, hkey.run_grows _ (by simp)⟩
      · exact ⟨_, hheader.run_grows b hb⟩
    · refine List.nodup_cons.mpr ⟨fun hmem => ?_, hheader.run_nodup⟩
      refine (List.nodup_append.mp hheader.fill_nodup).2.2 key hmem key ?_ rfl
      simp [Context.ids, Branch.idsOfAll, Branch.ids]
  obtain ⟨mid, hremove, hmsize, hmid, hmparent⟩ := hkey.remove?
  have hinner : mid.Holds (Context.fill (⟨owner, symbol, pre, post⟩ :: f :: above) header ++
      (.leaf key token.bare :: others)) := by
    simpa [Context.fill] using hmid
  obtain ⟨cut, hdetach, hcsize, hcut, hcparent⟩ := detachAll_siblings hinner
  have hall : detachAll bare (key :: header.map Branch.id) = (some f.before.length, cut) := by
    simp only [Branch.id] at hremove
    simp [detachAll, hremove, hdetach]
  have hgap : cut.Holds (Context.fill (⟨f.id, f.symbol, f.before,
      .node owner symbol (pre ++ post) :: f.after⟩ :: above) [] ++
      (header ++ .leaf key token.bare :: others)) := by
    simpa [Context.fill] using hcut
  obtain ⟨u, hok, husize, hu, huparent⟩ := replaceRun_of_detachAll
    (f := ⟨f.id, f.symbol, f.before, .node owner symbol (pre ++ post) :: f.after⟩)
    (h.run_grows (.leaf key token) (by simp)).leaf?_leaf hall hgap
  have hsize : cut.size = t.size := by omega
  rw [hsize] at husize hu huparent
  rw [htext] at hu
  refine ⟨u, hok, husize, ?_, fun n hn hrun => ?_⟩
  · have hperm : (header ++ .leaf key token.bare :: others).Perm
        (.leaf key token.bare :: header ++ others) := List.perm_middle
    refine Tree.Holds.of_perm ?_ (hperm.append_left _)
    simpa [Context.fill] using hu
  · rw [List.mem_cons, not_or] at hrun
    rw [huparent n hn, hcparent n hrun.2, hmparent n hrun.1, hbaredef, parent?_mapLeaf]

end Runs

/-- Whether the lines from the first to the last of some tokens are all outside the kept ones. -/
def clear (keep : LineSet) (tokens : List Leaf) : Bool :=
  match Leaf.span? tokens with
  | none => true
  | some span => !keep.intersects span

theorem misses_eq_clear {t : Tree} {run : List Branch} (keep : LineSet)
    (hgrows : ∀ b ∈ run, ∃ parent, t.Grows parent b) (hnodup : (Branch.idsOfAll run).Nodup)
    (hfull : ∀ b ∈ run, b.shape.Full) :
    misses t keep (run.map Branch.id) = clear keep ((Branch.leavesOfAll run).map Prod.snd) := by
  have hspan := lineSpan?_eq hgrows hnodup hfull
  unfold misses clear
  cases hall : Leaf.span? ((Branch.leavesOfAll run).map Prod.snd) with
  | none => rw [hspan, hall]
  | some span => rw [hspan, hall]

theorem clear_eq_false_iff {keep : LineSet} {tokens : List Leaf} {first last : Leaf}
    (hfirst : tokens.head? = some first) (hlast : tokens.getLast? = some last) :
    clear keep tokens = false ↔
      ∃ line, keep.contains line = true ∧ first.line ≤ line ∧ line ≤ last.endLine := by
  have hspan : Leaf.span? tokens = some ⟨first.line, last.endLine⟩ := by
    simp only [Leaf.span?, hfirst, hlast, Option.bind_eq_bind, Option.bind_some, Option.pure_def]
  simp only [clear, hspan, Bool.not_eq_false', LineSet.intersects_iff, LineRange.contains_iff]

section Node

variable {t : Tree} {f : Frame} {above c : Context} {x : Branch} {others : List Branch}

theorem misses_node (keep : LineSet) (h : t.Holds (c.fill [x] ++ others)) (hfull : x.shape.Full) :
    misses t keep [x.id] = clear keep (x.leaves.map Prod.snd) := by
  have hx := @misses_eq_clear t [x] keep (fun b hb => ⟨_, h.run_grows b hb⟩) h.run_nodup
    (by simpa using hfull)
  simpa [Branch.leavesOfAll] using hx

theorem collapseNode_top (h : t.Holds (x :: others)) : collapseNode t x.id = ⟨t, .ok false⟩ := by
  have hparent : t.parent? x.id = none := (h.grows x (by simp)).parent?
  simp [collapseNode, hparent]

theorem collapseNode_single (h : t.Holds (Context.fill (f :: above) [x] ++ others))
    (hfull : x.shape.Full) {first : NodeId} {leaf : Leaf} (hleaves : x.leaves = [(first, leaf)]) :
    collapseNode t x.id = ⟨t, .error (.singleLeaf x.id)⟩ := by
  have hx := h.run_grows x (by simp)
  have hnodup : x.ids.Nodup := by simpa [Branch.idsOfAll] using h.run_nodup
  simp [collapseNode, hx.parent?, Context.parent, hx.firstLeaf? hnodup hfull,
    hx.lastLeaf? hnodup hfull, hleaves]

theorem collapseNode_place (h : t.Holds (Context.fill (f :: above) [x] ++ others))
    (hfull : x.shape.Full) {first : NodeId} {leaf : Leaf} {more : List (NodeId × Leaf)}
    (hleaves : x.leaves = (first, leaf) :: more) (hmore : more ≠ []) :
    ∃ u, collapseNode t x.id = ⟨u, .ok true⟩ ∧ u.size = t.size + 1 ∧
      u.Holds (Context.fill (f :: above) [.leaf t.size (verbatim leaf
        (Leaf.render (leaf.bare :: more.map Prod.snd)))] ++ (x.bare :: others)) ∧
      ∀ n, n ≠ t.size → n ≠ x.id → u.parent? n = t.parent? n := by
  have hx := h.run_grows x (by simp)
  have hnodup : x.ids.Nodup := by simpa [Branch.idsOfAll] using h.run_nodup
  have hhead : x.leaves.head? = some (first, leaf) := by rw [hleaves, List.head?_cons]
  obtain ⟨last, hlast⟩ := Option.isSome_iff_exists.mp (List.getLast?_isSome.mpr hmore)
  have hdiff : first ≠ last.1 := by
    have hids := x.leaves_map_fst_sublist.nodup hnodup
    rw [hleaves, List.map_cons, List.nodup_cons] at hids
    intro heq
    have hmem : last.1 ∈ more.map Prod.fst := List.mem_map_of_mem (List.mem_of_getLast? hlast)
    exact hids.1 (show first ∈ more.map Prod.fst from heq ▸ hmem)
  obtain ⟨u, hok, hsize, hu, hparent⟩ := replaceRun_siblings h hfull hhead
  refine ⟨u, ?_, hsize, ?_, fun n hn hne => hparent n hn (by simpa using hne)⟩
  · have hfinal : x.leaves.getLast? = some last := by
      rw [hleaves, List.getLast?_cons_of_ne_nil hmore, hlast]
    simp only [collapseNode, hx.parent?, Context.parent, List.head?_cons, Option.map_some,
      hx.firstLeaf? hnodup hfull, hx.lastLeaf? hnodup hfull, hhead, hfinal, if_neg hdiff]
    exact hok
  · simpa [Branch.leavesOfAll, Branch.bare_leaves hfull hleaves] using hu

theorem collapseRun_siblings {head : Branch} {rest : List Branch}
    (h : t.Holds (Context.fill (f :: above) (head :: rest) ++ others))
    (hfull : head.shape.Full) {leaf : Leaf} {more : List Leaf}
    (htokens : (Branch.leavesOfAll (head :: rest)).map Prod.snd = leaf :: more) :
    ∃ u, collapseRun t ((head :: rest).map Branch.id) = ⟨u, .ok true⟩ ∧ u.size = t.size + 1 ∧
      u.Holds (Context.fill (f :: above) [.leaf t.size (verbatim leaf
        (Leaf.render (leaf.bare :: more)))] ++ (head.bare :: rest ++ others)) ∧
      ∀ n, n ≠ t.size → n ∉ (head :: rest).map Branch.id → u.parent? n = t.parent? n := by
  have hhead := h.run_grows head (by simp)
  have hnodup : head.ids.Nodup := by
    have hrun := h.run_nodup
    rw [Branch.idsOfAll, List.nodup_append] at hrun
    exact hrun.1
  obtain ⟨⟨first, token⟩, others', hleaves⟩ :=
    List.exists_cons_of_ne_nil (Branch.leaves_ne_nil_of_full hfull)
  simp only [Branch.leavesOfAll, hleaves, List.cons_append, List.map_cons, List.cons.injEq]
    at htokens
  have hfirst : head.leaves.head? = some (first, token) := by rw [hleaves, List.head?_cons]
  obtain ⟨u, hok, hsize, hu, hparent⟩ := replaceRun_siblings h hfull hfirst
  refine ⟨u, ?_, hsize, ?_, hparent⟩
  · simp only [List.map_cons, collapseRun, hhead.parent?, Context.parent, List.head?_cons,
      Option.map_some, hhead.firstLeaf? hnodup hfull, hfirst]
    exact hok
  · simpa [Branch.leavesOfAll, Branch.bare_leaves hfull hleaves, ← htokens.1, ← htokens.2] using hu

theorem collapseRun_keyword {key owner : NodeId} {token : Leaf} {symbol : Symbol}
    {pre header post : List Branch}
    (h : t.Holds (Context.fill (f :: above)
      [.leaf key token, .node owner symbol (pre ++ header ++ post)] ++ others)) :
    ∃ u, collapseRun t (key :: header.map Branch.id) = ⟨u, .ok true⟩ ∧ u.size = t.size + 1 ∧
      u.Holds (Context.fill (f :: above) [.leaf t.size (verbatim token
        (Leaf.render (token.bare :: (Branch.leavesOfAll header).map Prod.snd))),
        .node owner symbol (pre ++ post)] ++ (.leaf key token.bare :: header ++ others)) ∧
      ∀ n, n ≠ t.size → n ∉ key :: header.map Branch.id → u.parent? n = t.parent? n := by
  have hkey := h.run_grows (.leaf key token) (by simp)
  have hparent : t.parent? key = some f.id := hkey.parent?
  have hfirst : t.firstLeaf? key = some key :=
    hkey.firstLeaf? (by simp [Branch.ids]) (Shape.Full.leaf token)
  obtain ⟨u, hok, hrest⟩ := replaceRun_keyword h
  exact ⟨u, by simp only [collapseRun, hparent, hfirst, hok], hrest⟩

theorem misses_keyword (keep : LineSet) {key owner : NodeId} {token : Leaf} {symbol : Symbol}
    {pre header post : List Branch}
    (h : t.Holds (Context.fill (f :: above)
      [.leaf key token, .node owner symbol (pre ++ header ++ post)] ++ others))
    (hfull : ∀ b ∈ header, b.shape.Full) :
    misses t keep (key :: header.map Branch.id) =
      clear keep (token :: (Branch.leavesOfAll header).map Prod.snd) := by
  have hnodup : (Branch.idsOfAll (.leaf key token :: header)).Nodup := by
    refine List.Sublist.nodup ?_ h.run_nodup
    simp only [Branch.idsOfAll, Branch.ids, Branch.idsOfAll_append, List.cons_append,
      List.nil_append, List.append_nil, List.append_assoc]
    refine List.Sublist.cons_cons _ (List.Sublist.cons _ ?_)
    exact (List.sublist_append_left _ _).trans (List.sublist_append_right _ _)
  refine @misses_eq_clear t (.leaf key token :: header) keep ?_ hnodup ?_
  · intro b hb
    rcases List.mem_cons.mp hb with rfl | hb
    · exact ⟨_, h.run_grows _ List.mem_cons_self⟩
    · exact ⟨_, (h.run_grows (.node owner symbol (pre ++ header ++ post)) (by simp)).part
        (by simp [hb])⟩
  · intro b hb
    rcases List.mem_cons.mp hb with rfl | hb
    · exact .leaf _
    · exact hfull b hb

end Node

/-- Goes up from the end of a context for as long as nothing follows. -/
def closing : Context → Branch → Context × Branch
  | [], x => ([], x)
  | f :: above, x =>
    if f.after.isEmpty then closing above (.node f.id f.symbol (f.before ++ [x]))
    else (f :: above, x)

theorem fill_closing (c : Context) (x : Branch) :
    (closing c x).1.fill [(closing c x).2] = c.fill [x] := by
  induction c generalizing x with
  | nil => rfl
  | cons f above ih =>
    rw [closing]
    split
    · next hafter =>
      rw [ih, Context.fill, List.isEmpty_iff.mp hafter, List.append_nil]
    · rfl

/-- The node that a leaf ends is the one found by going up from it. -/
theorem furthestLast_eq {t : Tree} {c : Context} {x : Branch} {others : List Branch}
    (h : t.Holds (c.fill [x] ++ others)) :
    furthestLast t x.id (c.map Frame.id) = (closing c x).2.id := by
  induction c generalizing x with
  | nil => rfl
  | cons f above ih =>
    have hchildren : t.children f.id = f.before.map Branch.id ++ x.id :: f.after.map Branch.id := by
      simpa using h.children_parent
    have hlast : (t.children f.id).getLast? = some x.id ↔ f.after.isEmpty = true := by
      rw [List.isEmpty_iff, hchildren]
      rcases List.eq_nil_or_concat f.after with hnil | ⟨rest, last, hlast⟩
      · simp [hnil]
      · have hnodup := h.linked.nodup_children f.id
        rw [hchildren, hlast, List.nodup_middle, List.nodup_cons] at hnodup
        have hne : last.id ≠ x.id := fun heq => hnodup.1 (by simp [heq])
        simp [hlast, List.getLast?_append, List.getLast?_cons, hne]
    rw [List.map_cons, furthestLast, closing]
    by_cases hafter : f.after.isEmpty = true
    · rw [if_pos (hlast.mpr hafter), if_pos hafter]
      refine @ih (.node f.id f.symbol (f.before ++ [x])) ?_
      simpa [Context.fill, List.isEmpty_iff.mp hafter] using h
    · rw [if_neg (mt hlast.mp hafter), if_neg hafter]

theorem furthestEndingWith_eq {t : Tree} {c : Context} {x : Branch} {others : List Branch}
    (h : t.Holds (c.fill [x] ++ others)) : furthestEndingWith t x.id = (closing c x).2.id := by
  rw [furthestEndingWith, h.lineage (by simp), List.tail_cons, furthestLast_eq h]

end Collapse

end LineScope
