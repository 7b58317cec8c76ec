import LineScope.Parse.Lowering
import LineScope.Proofs.Collapse.Following
import LineScope.Proofs.Collapse.Settling

/-!
# Headers without kept lines

After a collapse a header is verbatim, or a line of it or of the `async` in front of it is kept. The
lines of what is left of a header are lines of the header as it was, so a header with no kept line is
gone once its `async` is. And the `async` goes with the first header behind it.
-/
namespace LineScope

namespace Collapse

open LineScope.Tree

section Leads

variable {t : Tree} {g : Frame} {above : Context} {x : Branch} {run others : List Branch}

/-- The `async` in front of a node, read off the store. -/
theorem leadIn_ids (h : t.Holds (Context.fill (g :: above) run ++ others)) :
    (leadIn above).map Branch.id =
      ((t.prevSibling? g.id).filter fun n => t.isToken n .async).toList := by
  have howner : t.Holds (Context.fill above [.node g.id g.symbol (g.before ++ run ++ g.after)] ++
      others) := h
  cases above with
  | nil =>
    have hparent : t.parent? g.id = none := howner.parent? (List.mem_singleton_self _)
    simp [leadIn, Tree.prevSibling?, Tree.siblings?, hparent]
  | cons f up =>
    have hprev : t.prevSibling? g.id = f.before.getLast?.map Branch.id := howner.prevSibling?
    rw [leadIn, leadOf, hprev]
    cases hlast : f.before.getLast? with
    | none => rfl
    | some b =>
      have hgrows : t.Grows (some f.id) b :=
        howner.surrounds.2.1 b (List.mem_append_left _ (List.mem_of_getLast? hlast))
      have hasync := isToken_async hgrows
      cases hb : b.isAsync <;> simp [Option.filter, hb, hasync]

theorem sublist_left (done header : List Branch) (hbefore : g.before = done ++ header) :
    (Branch.leavesOfAll (leadIn above ++ header)).Sublist (Context.left (g :: above)) := by
  have hlead : (Branch.leavesOfAll (leadIn above)).Sublist (Context.left above) := by
    rcases leadIn_cases above with hnil | ⟨f, up, pre, key, token, rfl, hpre, hkind⟩
    · rw [hnil]
      exact List.nil_sublist _
    · rw [leadIn_async hpre hkind, Context.left, hpre, Branch.leavesOfAll_append]
      exact (List.sublist_append_right _ _).trans (List.sublist_append_right _ _)
  rw [Context.left, hbefore, Branch.leavesOfAll_append, Branch.leavesOfAll_append]
  exact hlead.append (List.sublist_append_right _ _)

end Leads

section Lines

variable {keep : LineSet} {alive : NodeId → Prop} {leaves leaves' : List (NodeId × Leaf)}
  {front : List Leaf}

/-- If what is left of some leaves has a kept line, the leaves had one. -/
theorem Remains.kept (h : Remains alive leaves leaves') (hne : leaves' ≠ [])
    (hrising : Rising (front ++ leaves.map Prod.snd))
    (hlast : ∀ y ∈ (leaves'.map Prod.snd).getLast?, y.kind ≠ .verbatim)
    (hkept : clear keep (front ++ leaves'.map Prod.snd) = false) :
    clear keep (front ++ leaves.map Prod.snd) = false := by
  have hstem {x : NodeId × Leaf} (hx : x ∈ leaves') :
      ∃ a ∈ front ++ leaves.map Prod.snd, a.line ≤ x.2.line := by
    rcases h.stems x hx with hx | ⟨-, a, ha, hle⟩
    · exact ⟨x.2, List.mem_append_right _ (List.mem_map_of_mem hx), Nat.le_refl _⟩
    · exact ⟨a.2, List.mem_append_right _ (List.mem_map_of_mem ha), hle⟩
  have hne' : front ++ leaves.map Prod.snd ≠ [] := by
    obtain ⟨x, hx⟩ := List.exists_mem_of_ne_nil _ hne
    obtain ⟨a, ha, -⟩ := hstem hx
    exact List.ne_nil_of_mem ha
  have hhead := List.head?_eq_some_head hne'
  have hfinal := List.getLast?_eq_some_getLast hne'
  refine clear_eq_false_of_le hkept hhead hfinal (fun x hx => ?_) fun x hx => ?_
  · rcases List.mem_append.mp (List.mem_of_mem_head? hx) with hx | hx
    · exact hrising.line_le hhead (List.mem_append_left _ hx)
    · obtain ⟨y, hy, rfl⟩ := List.mem_map.mp hx
      obtain ⟨a, ha, hle⟩ := hstem hy
      exact (hrising.line_le hhead ha).trans hle
  · rw [List.getLast?_append_of_ne_nil _ (by simpa using hne)] at hx
    have hkind := hlast x hx
    obtain ⟨y, hy, rfl⟩ := List.mem_map.mp (List.mem_of_getLast? hx)
    refine hrising.endLine_le hfinal (List.mem_append_right _ ?_) hkind
    exact List.mem_map_of_mem ((h.stems y hy).resolve_right fun hstem => hkind hstem.1)

end Lines

section Ends

variable {keep : LineSet} {led : Prop} {u : Tree} {root start : Branch} {others : List Branch}
  {owner suite : NodeId} {g g' : Frame} {above above' : Context} {x x' : Branch}
  {header header' : List Branch}

/-- A header in front of a suite is verbatim or has a kept line, together with its `async`. -/
theorem Underway.fronts (hu : Underway keep led [] u root others)
    (h : Fronts owner suite root g above x header) (hne : leadIn above ++ header ≠ []) :
    (∃ n leaf, leadIn above = [] ∧ header = [.leaf n leaf] ∧ leaf.kind = .verbatim) ∨
      Branch.leavesOfAll header ≠ [] ∧
        clear keep (Branch.tokensOfAll (leadIn above ++ header)) = false ∧
        ∀ y ∈ (Branch.tokensOfAll header).getLast?, y.kind ≠ .verbatim := by
  obtain ⟨done, hheader⟩ := h.header_of
  obtain ⟨i, n, newline, parts, rfl, hnewline⟩ := exists_opener
    (Context.sound_of_fill (hu.fill_sound h.place) _ (List.mem_singleton_self _)) h.is_suite
  have hplace : Context.fill (⟨i, .suite, [], parts⟩ :: g :: above) [.leaf n newline] = [root] :=
    h.place
  rcases hu.settled _ n newline hplace hnewline List.not_mem_nil with ⟨⟨f, hf, hform⟩, -⟩ | hsettled
  · obtain rfl := Option.some.inj hf
    rcases hform with hform | hform <;> cases hform
  cases hsettled with
  | choice form => cases form
  | @bare _ _ _ form opens done_last lead behind =>
    obtain ⟨-, rfl⟩ := hheader.unique
      ⟨(List.append_nil g.before).symm, done_last, List.forall_mem_nil _⟩
    rw [lead] at hne
    exact absurd rfl hne
  | @suite _ _ _ done' header' form opens header_of nonempty kept last =>
    obtain ⟨-, rfl⟩ := hheader.unique header_of
    have hsingle {n : NodeId} {leaf : Leaf} (h : leadIn above ++ header = [.leaf n leaf]) :
        leadIn above = [] ∧ header = [.leaf n leaf] := by
      rcases List.append_eq_singleton_iff.mp h with hcase | ⟨-, hnil⟩
      · exact hcase
      · exact absurd hnil nonempty
    by_cases hverbatim : ∃ n leaf, leadIn above ++ header = [.leaf n leaf] ∧ leaf.kind = .verbatim
    · obtain ⟨n, leaf, hrun, hkind⟩ := hverbatim
      exact .inl ⟨n, leaf, (hsingle hrun).1, (hsingle hrun).2, hkind⟩
    · have hsound := Context.sound_frame (hu.fill_sound h.place)
      have hleaves : Branch.leavesOfAll header ≠ [] := leavesOfAll_ne_nil nonempty fun b hb =>
        (hsound.part (by simp [hheader.split, hb])).full
      refine .inr ⟨hleaves, kept.resolve_right hverbatim, ?_⟩
      rcases last with hlast | ⟨n, leaf, hrun⟩
      · exact hlast
      · rw [(hsingle hrun).2]
        intro y hy hkind
        obtain rfl : leaf = y := by simpa using hy
        exact hverbatim ⟨n, leaf, hrun, hkind⟩

/-- Two suites of one node have one `async` in front. -/
theorem Fronts.leadIn_eq_nil_iff {suite' : NodeId} (hu : u.Holds (root :: others))
    (h : Fronts owner suite root g above x header)
    (h' : Fronts owner suite' root g' above' x' header') :
    leadIn above = [] ↔ leadIn above' = [] := by
  have hholds {g : Frame} {above : Context} {x : Branch}
      (hplace : Context.fill (g :: above) [x] = [root]) :
      u.Holds (Context.fill (g :: above) [x] ++ others) := hplace ▸ hu
  rw [← List.map_eq_nil_iff (f := Branch.id), leadIn_ids (hholds h.place), h.owner_id,
    ← h'.owner_id, ← leadIn_ids (hholds h'.place), List.map_eq_nil_iff]

theorem Fronts.leaves_sublist (h : Fronts owner suite start g above x header) :
    (Branch.leavesOfAll (leadIn above ++ header)).Sublist start.leaves := by
  obtain ⟨done, hheader⟩ := h.header_of
  rw [Context.leaves_of_fill h.place, List.append_assoc]
  exact (sublist_left done header hheader.split).trans (List.sublist_append_left _ _)

theorem Fronts.rising (h : Fronts owner suite start g above x header)
    (hrising : Rising start.shape.tokens) :
    Rising (Branch.tokensOfAll (leadIn above) ++ Branch.tokensOfAll header) := by
  rw [Branch.tokens_shape] at hrising
  rw [← Branch.tokensOfAll_append]
  exact hrising.sublist (h.leaves_sublist.map Prod.snd)

theorem Fronts.followed (h : Fronts owner suite start g above x header) :
    Followed owner suite (leadIn above) (Branch.leavesOfAll header) start :=
  fun _ _ _ => ⟨g, above, x, header, h, .inr rfl, .refl _ _⟩

theorem Fronts.marks_known (h : Fronts owner suite start g above x header) :
    ∀ n ∈ marks owner (Branch.leavesOfAll header), n ∈ start.ids := by
  intro n hn
  have hmem : n ∈ Branch.idsOfAll (Context.fill (g :: above) [x] ++ []) :=
    Context.mem_idsOfAll_fill.mpr (.inr (.inl (h.marks_subset hn)))
  rw [List.append_nil, h.place] at hmem
  simpa [Branch.idsOfAll] using hmem

theorem Fronts.owner_mem (h : Fronts owner suite start g above x header) : owner ∈ start.ids :=
  h.marks_known owner List.mem_cons_self

section Gone

variable (hu : Underway keep led [] u root others) (hrising : Rising start.shape.tokens)
  (hfollowed : ∀ {owner suite : NodeId} {lead : List Branch} {leaves : List (NodeId × Leaf)},
    (∀ n ∈ marks owner leaves, n ∈ start.ids) → Followed owner suite lead leaves start →
      Followed owner suite lead leaves root)

include hu hrising hfollowed

/-- An `async` goes if it has no kept line together with a header behind it. -/
theorem Fronts.lead_gone (h : Fronts owner suite start g above x header)
    (hclear : clear keep (Branch.tokensOfAll (leadIn above ++ header)) = true)
    {suite' : NodeId} (h' : Fronts owner suite' root g' above' x' header') : leadIn above' = [] := by
  obtain ⟨f, up, y, rest, hfronts, hlead, hleft⟩ :=
    hfollowed h.marks_known h.followed owner List.mem_cons_self h'.owner_mem
  rw [h'.leadIn_eq_nil_iff hu.holds hfronts]
  by_contra hne
  have hsame := hlead.resolve_left hne
  rcases hu.fronts hfronts (List.append_ne_nil_of_left_ne_nil hne _) with
    ⟨n, leaf, hnil, -⟩ | ⟨hrest, hkept, hlast⟩
  · exact hne hnil
  · rw [hsame, Branch.tokensOfAll_append] at hkept
    have hfalse := hleft.kept hrest (h.rising hrising) hlast hkept
    rw [Branch.tokensOfAll_append] at hclear
    exact Bool.noConfusion (hfalse.symm.trans hclear)

/-- A header without a kept line goes, once there is no `async` in front. -/
theorem Fronts.header_gone (h : Fronts owner suite start g above x header)
    (hfresh : ∀ y ∈ start.leaves, y.2.kind ≠ .verbatim)
    (hclear : clear keep (Branch.tokensOfAll header) = true)
    (hlead : leadIn above ≠ [] → ∃ first f y front, Fronts owner first start f above y front ∧
      clear keep (Branch.tokensOfAll (leadIn above ++ front)) = true) :
    ∀ y ∈ Branch.leavesOfAll header, y.1 ∉ root.ids := by
  intro y hy hmem
  have hmark : y.1 ∈ marks owner (Branch.leavesOfAll header) :=
    List.mem_cons_of_mem _ (List.mem_map_of_mem hy)
  obtain ⟨f, up, z, rest, hfronts, hkeptLead, hleft⟩ :=
    hfollowed h.marks_known h.followed y.1 hmark hmem
  have hrest : y ∈ Branch.leavesOfAll rest := hleft.keeps y hy hmem
  have hnil : leadIn up = [] := by
    by_cases hstart : leadIn above = []
    · rcases hkeptLead with hnil | hsame
      · exact hnil
      · rw [hsame, hstart]
    · obtain ⟨first, e, w, front, hfirst, hfirstClear⟩ := hlead hstart
      exact hfirst.lead_gone hu hrising hfollowed hfirstClear hfronts
  have hne : rest ≠ [] := by
    rintro rfl
    cases hrest
  rcases hu.fronts hfronts (List.append_ne_nil_of_right_ne_nil _ hne) with
    ⟨n, leaf, -, rfl, hkind⟩ | ⟨hleaves, hkept, hlast⟩
  · obtain rfl : y = (n, leaf) := List.mem_singleton.mp hrest
    have hstart : (n, leaf) ∈ start.leaves := h.leaves_sublist.subset
      (Branch.leavesOfAll_append _ _ ▸ List.mem_append_right _ hy)
    exact hfresh _ hstart hkind
  · rw [hnil, List.nil_append] at hkept
    have hfalse := @Remains.kept _ _ _ _ [] hleft hleaves
      ((h.rising hrising).sublist (List.sublist_append_right _ _)) hlast hkept
    exact Bool.noConfusion (hfalse.symm.trans hclear)

end Gone

end Ends

section Store

variable {t : Tree} {start : Branch} {owner suite : NodeId} {before after : List NodeId} {g : Frame}
  {above : Context} {x : Branch} {header : List Branch} {keep : LineSet} {ranges : List LineRange}

/-- Every suite of a tree stands behind its header. -/
theorem exists_fronts (ht : t.Holds [start]) (hwalled : start.shape.Walled)
    (hsuite : suite ∈ start.ids) (hsymbol : t.isSymbol suite .suite = true)
    (hchildren : t.children owner = before ++ suite :: after) :
    ∃ g above x header, Fronts owner suite start g above x header ∧
      headerBefore t before = header.map Branch.id := by
  obtain ⟨c, x, hplace, rfl⟩ := Context.exists_fill hsuite
  have hholds : t.Holds (c.fill [x] ++ []) := by rwa [hplace]
  have hparent : t.parent? x.id = some owner := ht.linked.mem_children.mp (by simp [hchildren])
  have hcontext := hholds.parent? (List.mem_singleton_self x)
  rw [hparent] at hcontext
  cases c with
  | nil => cases hcontext
  | cons g above =>
    obtain rfl : owner = g.id := Option.some.inj hcontext
    obtain ⟨done, header, hheader⟩ := exists_headerOf g.before
    have hids := hholds.children_parent
    rw [hchildren, List.map_singleton, List.append_assoc, List.singleton_append] at hids
    have hnodup := ht.linked.nodup_children g.id
    rw [hchildren, List.nodup_middle, List.nodup_cons, List.mem_append, not_or] at hnodup
    obtain ⟨rfl, -, -⟩ := (List.append_cons_inj_of_notMem hnodup.1.1 hnodup.1.2).mp hids
    have hx : x.isSuite = true :=
      (isSymbol_suite (hholds.run_grows x (List.mem_singleton_self x))).symm.trans hsymbol
    refine ⟨g, above, x, header, ⟨hplace, rfl, rfl, fun hg => ?_, hx, done, hheader⟩,
      hheader.headerBefore hholds⟩
    have hfill : ∀ b ∈ Context.fill (g :: above) [x], b.shape.Walled := by
      rw [hplace]
      exact List.forall_mem_singleton.mpr hwalled
    exact ((Context.walled_of_fill hfill).2 g rfl).suites (.inl hg) x.shape (by simp)
      (Branch.isSuite_iff.mp hx)

/-- The first suite of a node has all that comes before it for its header. -/
theorem Fronts.exists_first (h : Fronts owner suite start g above x header) (ht : t.Holds [start]) :
    ∃ first f y, Fronts owner first start f above y f.before ∧
      (t.children owner).takeWhile (fun n => !t.isSymbol n .suite) = f.before.map Branch.id := by
  set p := fun b : Branch => !b.isSuite with hp
  have hsplit := List.takeWhile_append_dropWhile (p := p) (l := g.before ++ [x] ++ g.after)
  have hfree : ∀ b ∈ (g.before ++ [x] ++ g.after).takeWhile p, b.isSuite = false := fun b hb => by
    simpa [hp] using List.mem_takeWhile_imp (p := p) hb
  cases hrest : (g.before ++ [x] ++ g.after).dropWhile p with
  | nil =>
    have hx := List.dropWhile_eq_nil_iff.mp hrest x (by simp)
    simp [hp, h.is_suite] at hx
  | cons y rest =>
    have hy : y.isSuite = true := by
      have hhead := List.head?_dropWhile_not p (g.before ++ [x] ++ g.after)
      rw [hrest] at hhead
      simpa [hp] using hhead
    rw [hrest] at hsplit
    set front := (g.before ++ [x] ++ g.after).takeWhile p
    have hplace : Context.fill (⟨g.id, g.symbol, front, rest⟩ :: above) [y] = [start] := by
      rw [← h.place, Context.fill, Context.fill, ← hsplit]
      simp
    have hholds : t.Holds (Context.fill (⟨g.id, g.symbol, front, rest⟩ :: above) [y] ++ []) := by
      rwa [hplace]
    refine ⟨y.id, ⟨g.id, g.symbol, front, rest⟩, y, ⟨hplace, h.owner_id, rfl, h.owner_symbol, hy, [],
      ⟨rfl, by simp, hfree⟩⟩, ?_⟩
    have hchildren := hholds.children_parent
    have hgrows := hholds.surrounds.2.1
    simp only [h.owner_id, List.map_singleton, List.append_assoc, List.singleton_append]
      at hchildren hgrows
    rw [hchildren, List.takeWhile_append_of_pos, List.takeWhile_cons_of_neg, List.append_nil]
    · rw [isSymbol_suite (hholds.run_grows y (List.mem_singleton_self y)), hy]
      decide
    · rw [List.forall_mem_map]
      intro b hb
      rw [isSymbol_suite (hgrows b (List.mem_append_left _ hb)), hfree b hb]
      rfl

theorem Fronts.exists_gap (h : Fronts owner suite start g above x header) (ht : t.Holds [start]) :
    ∃ c : Context, c.fill header = [start] ∧ t.Holds (c.fill header ++ []) := by
  obtain ⟨done, hheader⟩ := h.header_of
  have hplace : Context.fill (⟨g.id, g.symbol, done, x :: g.after⟩ :: above) header = [start] := by
    rw [← h.place, Context.fill, Context.fill, hheader.split]
    simp
  exact ⟨_, hplace, by rwa [hplace]⟩

theorem Fronts.misses_header (h : Fronts owner suite start g above x header) (ht : t.Holds [start])
    (hfull : start.shape.Full) :
    misses t keep (header.map Branch.id) = clear keep (Branch.tokensOfAll header) := by
  obtain ⟨c, hplace, hholds⟩ := h.exists_gap ht
  refine misses_eq_clear keep (fun b hb => ⟨_, hholds.run_grows b hb⟩) hholds.run_nodup ?_
  exact Context.full_of_fill (by rw [hplace]; exact List.forall_mem_singleton.mpr hfull)

theorem Fronts.leaves_header (h : Fronts owner suite start g above x header) (ht : t.Holds [start])
    {b : Branch} (hb : b ∈ header) : t.leaves b.id = b.leaves.map Prod.fst := by
  obtain ⟨c, -, hholds⟩ := h.exists_gap ht
  exact (hholds.run_grows b hb).leaves_eq (Branch.ids_nodup_of_mem hholds.run_nodup hb)

/-- The line span of a header that has all before it, with the `async` in front. -/
theorem Fronts.misses_led (h : Fronts owner suite start g above x g.before) (ht : t.Holds [start])
    (hfull : start.shape.Full) (hlead : leadIn above ≠ []) :
    ∃ key, t.prevSibling? owner = some key ∧ t.isToken key .async = true ∧
      misses t keep (key :: g.before.map Branch.id) =
        clear keep (Branch.tokensOfAll (leadIn above ++ g.before)) := by
  obtain ⟨f, up, pre, key, token, rfl, hbefore, hkind⟩ := (leadIn_cases above).resolve_left hlead
  have howner : t.Holds (Context.fill (f :: up) [.node g.id g.symbol (g.before ++ [x] ++ g.after)] ++
      []) := by
    rw [← h.place] at ht
    exact (List.append_nil _).symm ▸ ht
  have hplace : Context.fill (⟨f.id, f.symbol, pre, f.after⟩ :: up)
      [.leaf key token, .node g.id g.symbol ([] ++ g.before ++ x :: g.after)] = [start] := by
    rw [← h.place]
    simp [Context.fill, hbefore]
  have hholds : t.Holds (Context.fill (⟨f.id, f.symbol, pre, f.after⟩ :: up)
      [.leaf key token, .node g.id g.symbol ([] ++ g.before ++ x :: g.after)] ++ []) := by
    rwa [hplace]
  have hparts : ∀ b ∈ g.before, b.shape.Full := by
    have hnode := Context.full_of_fill (by rw [hplace]; exact List.forall_mem_singleton.mpr hfull) _
      (List.mem_cons_of_mem _ (List.mem_singleton_self _))
    exact fun b hb => (Branch.full_of_mem hnode).2 b (by simp [hb])
  refine ⟨key, ?_, ?_, ?_⟩
  · rw [← h.owner_id]
    exact howner.prevSibling?.trans (by rw [hbefore, List.getLast?_concat]; rfl)
  · exact (isToken_async (hholds.run_grows _ List.mem_cons_self)).trans (by simp [Branch.isAsync, hkind])
  · rw [misses_keyword keep hholds hparts, leadIn_async hbefore hkind]
    rfl

theorem full_fileShape {code : Grammar.Block} (h : code.Wf) (endMarker : Leaf) :
    (Grammar.fileShape code endMarker).Full := by
  refine .node (by simp) ?_
  rw [List.forall_mem_append, List.forall_mem_singleton]
  exact ⟨full_block code h, .leaf endMarker⟩

/-- After a collapse of a program all its suites are followed. -/
theorem follows_program {code : Grammar.Block} {endMarker : Leaf} (h : t.IsProgram code endMarker)
    (ht : t.Holds [start]) (hid : start.id = rootId)
    (hshape : start.shape = Grammar.fileShape code endMarker) (ranges : List LineRange)
    (wholeStatements : Bool) :
    ∃ listed forest root, Follows start listed (t.collapseUnchanged ranges wholeStatements).tree
      forest root := by
  have hstart : Follows start [] t [start] start := by
    refine ⟨⟨ht, ?_, List.mem_singleton_self _, hid, List.forall_mem_nil _⟩, ?_, fun n hn => ?_,
      fun _ hstart => hstart⟩
    · exact List.forall_mem_singleton.mpr (hshape ▸ full_fileShape h.wf endMarker)
    · exact List.forall_mem_singleton.mpr (hshape ▸ walled_fileShape h.wf endMarker)
    · exact (ht.grows start (List.mem_singleton_self _)).lt_size hn
  exact (follows_persists _ start).collapseUnchanged hstart wholeStatements

end Store

end Collapse

open Collapse Grammar

/-- No line from the first leaf of some nodes to the last one is in the ranges. -/
def Tree.Outside (t : Tree) (ranges : List LineRange) (nodes : List NodeId) : Prop :=
  ∀ span, t.lineSpan? nodes = some span →
    ∀ line, span.contains line = true → ∀ range ∈ ranges, range.contains line = false

theorem Tree.outside_iff_misses {t : Tree} {ranges : List LineRange} {nodes : List NodeId} :
    t.Outside ranges nodes ↔ misses t (.ofRanges ranges) nodes = true := by
  unfold Outside Collapse.misses
  cases t.lineSpan? nodes with
  | none => exact iff_of_true nofun rfl
  | some span =>
    simp only [Option.some.injEq, forall_eq', Bool.not_eq_true', Bool.eq_false_iff, Ne,
      LineSet.intersects_iff, LineSet.contains_ofRanges, List.any_eq_true]
    constructor
    · rintro hall ⟨line, ⟨range, hrange, hcontains⟩, hline⟩
      exact hall line hline range hrange hcontains
    · intro hnone line hline range hrange hcontains
      exact hnone ⟨line, ⟨range, hrange, hcontains⟩, hline⟩

/-- A header none of whose lines is in the ranges is gone after a collapse of a program: none of its
leaves is attached any more. Behind an `async`, this also takes that none of the lines from the
`async` to the end of the first header is in the ranges. -/
theorem Tree.collapseUnchanged_clears_headers {t : Tree} {code : Block} {endMarker : Leaf}
    (h : t.IsProgram code endMarker) (hbodied : code.Bodied) (ranges : List LineRange)
    (wholeStatements : Bool) :
    ∃ u summary, t.collapseUnchanged ranges wholeStatements = ⟨u, .ok summary⟩ ∧
      ∀ owner before suite after, t.isAttached suite = true → t.isSymbol suite .suite = true →
        t.children owner = before ++ suite :: after →
        t.Outside ranges (headerBefore t before) →
        (∀ key, t.prevSibling? owner = some key → t.isToken key .async = true →
          t.Outside ranges
            (key :: (t.children owner).takeWhile fun n => !t.isSymbol n .suite)) →
        ∀ n ∈ headerBefore t before, ∀ leaf ∈ t.leaves n, u.isAttached leaf = false := by
  obtain ⟨u, summary, root, others, hok, hu⟩ :=
    collapseUnchanged_settles h hbodied ranges wholeStatements
  refine ⟨u, summary, hok, fun owner before suite after hattached hsymbol hchildren houtside hled n hn
    leaf hleaf => ?_⟩
  obtain ⟨start, hid, hshape, ht⟩ := h.shape
  have hfull : start.shape.Full := hshape ▸ full_fileShape h.wf endMarker
  have htokens : start.shape.tokens = code.tokens ++ [endMarker] := by
    rw [hshape, tokens_fileShape]
  obtain ⟨listed, forest, root', hfollows⟩ := follows_program h ht hid hshape ranges wholeStatements
  rw [hok] at hfollows
  obtain rfl : root' = root := by
    refine (hfollows.standing.holds.grows root' hfollows.standing.root_mem).unique
      (hu.holds.grows root List.mem_cons_self) ?_
    rw [hfollows.standing.root_id, hu.root_id]
  have hsuite : suite ∈ start.ids := (ht.isAttached_iff (List.mem_singleton_self _) hid).mp hattached
  obtain ⟨g, above, x, header, hfronts, hheader⟩ :=
    exists_fronts ht (hshape ▸ walled_fileShape h.wf endMarker) hsuite hsymbol hchildren
  rw [hheader] at houtside hn
  obtain ⟨b, hb, rfl⟩ := List.mem_map.mp hn
  have hclear : clear (.ofRanges ranges) (Branch.tokensOfAll header) = true :=
    (hfronts.misses_header ht hfull).symm.trans (outside_iff_misses.mp houtside)
  have hfresh : ∀ y ∈ start.leaves, y.2.kind ≠ .verbatim := by
    intro y hy
    have hmem : y.2 ∈ start.shape.tokens := start.tokens_shape ▸ List.mem_map_of_mem hy
    rw [htokens] at hmem
    rcases List.mem_append.mp hmem with hmem | hmem
    · exact h.fresh y.2 hmem
    · rw [List.mem_singleton.mp hmem, h.kind]
      decide
  have hgone := hfronts.header_gone hu (htokens ▸ .of_ascend h.ascending) hfollows.followed hfresh
    hclear fun hlead => by
      obtain ⟨first, f, y, hfirst, hfront⟩ := hfronts.exists_first ht
      obtain ⟨key, hkey, hasync, hmisses⟩ := hfirst.misses_led ht hfull hlead
      refine ⟨first, f, y, f.before, hfirst, hmisses.symm.trans ?_⟩
      exact outside_iff_misses.mp (hfront ▸ hled key hkey hasync)
  rw [Bool.eq_false_iff, Ne, hu.holds.isAttached_iff List.mem_cons_self hu.root_id]
  rw [hfronts.leaves_header ht hb] at hleaf
  obtain ⟨y, hy, rfl⟩ := List.mem_map.mp hleaf
  refine hgone y ?_
  rw [Branch.leavesOfAll_eq_flatMap, List.mem_flatMap]
  exact ⟨b, hb, hy⟩

/-- An `async` with a kept line holds the headers behind it, though these have none: the first one if
the `async` stands on a line of its own, and the `else` of a loop. -/
theorem Parse.async_holds_headers :
    let text := "async \\\ndef f():\n    async for x in y:\n        pass\n    else:\n        pass\n"
    let report : Parse.Report :=
      .node ⟨"module", 0, 75, false, false, false, false⟩
        [.node ⟨"function_definition", 0, 74, false, false, false, false⟩
            [.node ⟨"async", 0, 5, false, false, false, false⟩ [],
              .node ⟨"line_continuation", 6, 8, true, false, false, false⟩ [],
              .node ⟨"def", 8, 11, false, false, false, false⟩ [],
              .node ⟨"identifier", 12, 13, false, false, false, false⟩ [],
              .node ⟨"parameters", 13, 15, false, false, false, false⟩
                [.node ⟨"(", 13, 14, false, false, false, false⟩ [],
                  .node ⟨")", 14, 15, false, false, false, false⟩ []],
              .node ⟨":", 15, 16, false, false, false, false⟩ [],
              .node ⟨"block", 21, 74, false, false, false, false⟩
                [.node ⟨"for_statement", 21, 74, false, false, false, false⟩
                    [.node ⟨"async", 21, 26, false, false, false, false⟩ [],
                      .node ⟨"for", 27, 30, false, false, false, false⟩ [],
                      .node ⟨"identifier", 31, 32, false, false, false, false⟩ [],
                      .node ⟨"in", 33, 35, false, false, false, false⟩ [],
                      .node ⟨"identifier", 36, 37, false, false, false, false⟩ [],
                      .node ⟨":", 37, 38, false, false, false, false⟩ [],
                      .node ⟨"block", 47, 51, false, false, false, false⟩
                        [.node ⟨"pass_statement", 47, 51, false, false, false, false⟩
                            [.node ⟨"pass", 47, 51, false, false, false, false⟩ []]],
                      .node ⟨"else_clause", 56, 74, false, false, false, false⟩
                        [.node ⟨"else", 56, 60, false, false, false, false⟩ [],
                          .node ⟨":", 60, 61, false, false, false, false⟩ [],
                          .node ⟨"block", 70, 74, false, false, false, false⟩
                            [.node ⟨"pass_statement", 70, 74, false, false, false, false⟩
                                [.node ⟨"pass", 70, 74, false, false, false, false⟩ []]]]]]]]
    let ranges : List LineRange := [⟨1, 1⟩, ⟨3, 3⟩]
    ∃ t, Parse.tree text report = .ok t ∧
      (t.children 3 = [4, 5, 6, 9] ++ 10 :: [] ∧ t.isSymbol 10 .suite = true ∧
        headerBefore t [4, 5, 6, 9] = [4, 5, 6, 9] ∧ t.Outside ranges [4, 5, 6, 9]) ∧
      (t.children 15 = [16, 17, 18, 19, 20, 21, 29, 30] ++ 31 :: [] ∧ t.isSymbol 31 .suite = true ∧
        headerBefore t [16, 17, 18, 19, 20, 21, 29, 30] = [29, 30] ∧ t.Outside ranges [29, 30]) ∧
      ∀ wholeStatements, (t.collapseUnchanged ranges wholeStatements).result.isOk = true ∧
        (t.collapseUnchanged ranges wholeStatements).tree.isAttached 4 = true ∧
        (t.collapseUnchanged ranges wholeStatements).tree.isAttached 29 = true := by
  refine ⟨_, rfl, ?_⟩
  simp only [Tree.outside_iff_misses]
  decide +kernel

end LineScope
