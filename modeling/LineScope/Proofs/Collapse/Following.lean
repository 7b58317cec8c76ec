import LineScope.Proofs.Collapse.Persistence
import LineScope.Proofs.Collapse.Settled

/-!
# Headers followed through a collapse

A suite goes only together with the node around it, so as long as that node or part of its header is
there, the suite stands in the node behind what is left of the header: leaves of before, and verbatim
leaves on their lines. The `async` in front of the node is the one of before or gone.
-/
namespace LineScope

namespace Collapse

open LineScope.Tree

/-- What is left of some leaves: those whose numbers are alive, and verbatim leaves. -/
structure Remains (alive : NodeId → Prop) (leaves leaves' : List (NodeId × Leaf)) : Prop where
  stems : ∀ x ∈ leaves', x ∈ leaves ∨ x.2.kind = .verbatim ∧ ∃ a ∈ leaves, a.2.line ≤ x.2.line
  keeps : ∀ x ∈ leaves, alive x.1 → x ∈ leaves'

namespace Remains

variable {p q r : NodeId → Prop} {a b c : List (NodeId × Leaf)}

theorem refl (p : NodeId → Prop) (a : List (NodeId × Leaf)) : Remains p a a :=
  ⟨fun _ hx => .inl hx, fun _ hx _ => hx⟩

theorem trans (h : Remains p a b) (h' : Remains q b c) (halive : ∀ x ∈ a, r x.1 → p x.1 ∧ q x.1) :
    Remains r a c := by
  refine ⟨fun x hx => ?_, fun x hx hr => ?_⟩
  · rcases h'.stems x hx with hx | ⟨hkind, y, hy, hle⟩
    · exact h.stems x hx
    · refine .inr ⟨hkind, ?_⟩
      rcases h.stems y hy with hy | ⟨-, z, hz, hle'⟩
      · exact ⟨y, hy, hle⟩
      · exact ⟨z, hz, hle'.trans hle⟩
  · obtain ⟨hp, hq⟩ := halive x hx hr
    exact h'.keeps x (h.keeps x hx hp) hq

theorem append (h : Remains p a b) (left right : List (NodeId × Leaf)) :
    Remains p (left ++ a ++ right) (left ++ b ++ right) := by
  refine ⟨fun x hx => ?_, fun x hx hp => ?_⟩
  · simp only [List.mem_append] at hx ⊢
    rcases hx with (hx | hx) | hx
    · exact .inl (.inl (.inl hx))
    · rcases h.stems x hx with hx | ⟨hkind, y, hy, hle⟩
      · exact .inl (.inl (.inr hx))
      · exact .inr ⟨hkind, y, .inl (.inr hy), hle⟩
    · exact .inl (.inr hx)
  · simp only [List.mem_append] at hx ⊢
    rcases hx with (hx | hx) | hx
    · exact .inl (.inl hx)
    · exact .inl (.inr (h.keeps x hx hp))
    · exact .inr hx

theorem fill {run run' : List Branch}
    (h : Remains p (Branch.leavesOfAll run) (Branch.leavesOfAll run')) (c : Context) :
    Remains p (Branch.leavesOfAll (c.fill run)) (Branch.leavesOfAll (c.fill run')) := by
  rw [Context.leavesOfAll_fill, Context.leavesOfAll_fill]
  exact h.append _ _

/-- A run that goes leaves what comes in its place. -/
theorem of_stems {run : List Branch} {leaves : List (NodeId × Leaf)} (stems : ∀ x ∈ leaves,
    x.2.kind = .verbatim ∧ ∃ a ∈ Branch.leavesOfAll run, a.2.line ≤ x.2.line) :
    Remains (· ∉ Branch.idsOfAll run) (Branch.leavesOfAll run) leaves :=
  ⟨fun x hx => .inr (stems x hx), fun _ hx hfree => absurd
    ((Branch.leavesOfAll_map_fst_sublist run).subset (List.mem_map_of_mem hx)) hfree⟩

end Remains

namespace HeaderOf

variable {before front done done' header header' : List Branch}

theorem eq_nil_of_longer {mid : List Branch} (h : HeaderOf before done header)
    (h' : HeaderOf before (done ++ mid) header') (hmid : header = mid ++ header') : mid = [] := by
  rcases List.eq_nil_or_concat mid with rfl | ⟨mid, last, rfl⟩
  · rfl
  · have hsuite := h'.done_last last (by simp)
    rw [h.header_suite last (by simp [hmid])] at hsuite
    cases hsuite

theorem unique (h : HeaderOf before done header) (h' : HeaderOf before done' header') :
    done = done' ∧ header = header' := by
  rcases List.append_eq_append_iff.mp (h.split.symm.trans h'.split) with
    ⟨mid, rfl, hmid⟩ | ⟨mid, rfl, hmid⟩
  · obtain rfl := h.eq_nil_of_longer h' hmid
    exact ⟨(List.append_nil _).symm, hmid⟩
  · obtain rfl := h'.eq_nil_of_longer h hmid
    exact ⟨List.append_nil _, hmid.symm⟩

/-- What stands in front of a suite does not matter to the header behind it. -/
theorem prepend (h : HeaderOf before done header) (hne : done ≠ []) (front : List Branch) :
    HeaderOf (front ++ before) (front ++ done) header where
  split := by rw [h.split, List.append_assoc]
  done_last b hb := h.done_last b (by rwa [List.getLast?_append_of_ne_nil _ hne] at hb)
  header_suite := h.header_suite

theorem extend (h : HeaderOf before done header) {back : List Branch}
    (hback : ∀ b ∈ back, b.isSuite = false) : HeaderOf (before ++ back) done (header ++ back) where
  split := by rw [h.split, List.append_assoc]
  done_last := h.done_last
  header_suite := List.forall_mem_append.mpr ⟨h.header_suite, hback⟩

/-- Some parts in front of a suite change, and one that is a suite stays one. -/
theorem exchange {p : NodeId → Prop} {mid mid' back : List Branch}
    (h : HeaderOf (front ++ mid ++ back) done header)
    (hmid : Remains p (Branch.leavesOfAll mid) (Branch.leavesOfAll mid'))
    (hsuites : (∀ b ∈ mid, b.isSuite = false) ∧ (∀ b ∈ mid', b.isSuite = false) ∨
      ∃ m m', mid = [m] ∧ mid' = [m'] ∧ m.isSuite = true ∧ m'.isSuite = true) :
    ∃ done' header', HeaderOf (front ++ mid' ++ back) done' header' ∧
      Remains p (Branch.leavesOfAll header) (Branch.leavesOfAll header') := by
  obtain ⟨doneBack, headerBack, hback⟩ := exists_headerOf back
  by_cases hne : doneBack = []
  · subst hne
    obtain rfl : back = headerBack := hback.split
    rcases hsuites with ⟨hfree, hfree'⟩ | ⟨m, m', rfl, rfl, hm, hm'⟩
    · obtain ⟨doneFront, headerFront, hfront⟩ := exists_headerOf front
      obtain ⟨-, rfl⟩ := h.unique ((hfront.extend hfree).extend hback.header_suite)
      refine ⟨_, _, (hfront.extend hfree').extend hback.header_suite, ?_⟩
      simpa only [Branch.leavesOfAll_append] using hmid.append _ _
    · have hheader (m : Branch) (hm : m.isSuite = true) :
          HeaderOf (front ++ [m] ++ back) (front ++ [m]) back :=
        ⟨rfl, by simpa using hm, hback.header_suite⟩
      obtain ⟨-, rfl⟩ := h.unique (hheader m hm)
      exact ⟨_, _, hheader m' hm', .refl _ _⟩
  · obtain ⟨-, rfl⟩ := h.unique (hback.prepend hne (front ++ mid))
    exact ⟨_, _, hback.prepend hne (front ++ mid'), .refl _ _⟩

end HeaderOf

structure Fronts (owner suite : NodeId) (root : Branch) (g : Frame) (above : Context) (x : Branch)
    (header : List Branch) : Prop where
  place : Context.fill (g :: above) [x] = [root]
  owner_id : g.id = owner
  suite_id : x.id = suite
  owner_symbol : g.symbol ≠ .suite
  is_suite : x.isSuite = true
  header_of : ∃ done, HeaderOf g.before done header

def marks (owner : NodeId) (leaves : List (NodeId × Leaf)) : List NodeId :=
  owner :: leaves.map Prod.fst

/-- As long as the owner or one of some leaves is there, the suite stands behind what is left of these
leaves, and an `async` in front of the owner is the one given. -/
def Followed (owner suite : NodeId) (lead : List Branch) (leaves : List (NodeId × Leaf))
    (root : Branch) : Prop :=
  ∀ n ∈ marks owner leaves, n ∈ root.ids → ∃ g above x header,
    Fronts owner suite root g above x header ∧ (leadIn above = [] ∨ leadIn above = lead) ∧
      Remains (· ∈ root.ids) leaves (Branch.leavesOfAll header)

section Fold

variable {owner suite new : NodeId} {lead : List Branch} {leaves : List (NodeId × Leaf)}
  {root root' : Branch} {f g g' : Frame} {up above above' inner path : Context} {x x' b : Branch}
  {run run' header : List Branch}

theorem leadOf_append_of_ne_nil (front : List Branch) {back : List Branch} (hne : back ≠ []) :
    leadOf (front ++ back) = leadOf back := by
  rw [leadOf, leadOf, List.getLast?_append_of_ne_nil _ hne]

theorem Fronts.relocate (h : Fronts owner suite root g above x header)
    (place : Context.fill (g' :: above') [x'] = [root']) (hid : g'.id = g.id)
    (hsymbol : g'.symbol = g.symbol) (hbefore : g'.before = g.before) (hx : x'.id = x.id)
    (hsuite : x'.isSuite = x.isSuite) : Fronts owner suite root' g' above' x' header where
  place := place
  owner_id := hid.trans h.owner_id
  suite_id := hx.trans h.suite_id
  owner_symbol := hsymbol ▸ h.owner_symbol
  is_suite := hsuite.trans h.is_suite
  header_of := hbefore ▸ h.header_of

theorem Fronts.marks_subset (h : Fronts owner suite root g above x header) {c : Context} :
    marks owner (Branch.leavesOfAll header) ⊆ Context.ids (g :: c) := by
  obtain ⟨done, hheader⟩ := h.header_of
  refine List.cons_subset.mpr ⟨by simp [Context.ids, h.owner_id], fun n hn => ?_⟩
  have hmem : n ∈ Branch.idsOfAll header := (Branch.leavesOfAll_map_fst_sublist header).subset hn
  simp [Context.ids, hheader.split, hmem]

theorem Fronts.fold_inside (h : Fronts owner suite root g above x header)
    (hroot' : Context.fill (f :: path ++ g :: above) run' = [root'])
    (hfill : Context.fill (f :: path) run = [x]) :
    ∃ x', Fronts owner suite root' g above x' header := by
  obtain ⟨id, symbol, hnode⟩ := Context.exists_fill_node f path
  obtain ⟨parts, hparts⟩ := hnode run
  obtain ⟨parts', hparts'⟩ := hnode run'
  obtain rfl := List.singleton_inj.mp (hfill.symm.trans hparts)
  rw [Context.fill_append, hparts'] at hroot'
  exact ⟨_, h.relocate hroot' rfl rfl rfl rfl rfl⟩

theorem Fronts.fold_behind {pre post : List Branch}
    (h : Fronts owner suite root g above x header)
    (hroot' : Context.fill (path ++ f :: up) run' = [root'])
    (hbefore : f.before = pre ++ b :: post) (hfill : inner.fill [x] = [b])
    (hplace : g :: above =
      inner ++ ⟨f.id, f.symbol, pre, post ++ path.fill run ++ f.after⟩ :: up) :
    ∃ g' above', Fronts owner suite root' g' above' x header ∧ leadIn above' = leadIn above := by
  have hroot' := (Context.fill_before hfill hbefore path up run').trans hroot'
  cases inner with
  | nil =>
    obtain ⟨rfl, rfl⟩ := List.cons.inj hplace
    exact ⟨_, _, h.relocate hroot' rfl rfl rfl rfl rfl, rfl⟩
  | cons i inner =>
    obtain ⟨rfl, rfl⟩ := List.cons.inj hplace
    exact ⟨_, _, h.relocate hroot' rfl rfl rfl rfl rfl, by cases inner <;> rfl⟩

/-- What a fold makes of the `async` in front of the node that follows the gap. -/
theorem leadOf_fold {pre : List Branch}
    (hverbatim : ∀ b ∈ run', ∃ token, b = .leaf new token ∧ token.kind = .verbatim)
    (hnext : path = [] → run' = [] → pre ≠ []) (front : List Branch) :
    leadOf (front ++ path.fill run' ++ pre) = [] ∨
      leadOf (front ++ path.fill run' ++ pre) = leadOf (front ++ path.fill run ++ pre) := by
  rcases eq_or_ne pre [] with rfl | hpre
  · left
    rw [List.append_nil]
    cases path with
    | nil =>
      rcases List.eq_nil_or_concat run' with rfl | ⟨init, last, rfl⟩
      · exact absurd rfl (hnext rfl rfl)
      · obtain ⟨token, rfl, hkind⟩ := hverbatim last (by simp)
        rw [Context.fill, List.concat_eq_append, ← List.append_assoc]
        exact leadOf_eq_nil (by simp [Branch.isAsync, hkind])
    | cons i path =>
      obtain ⟨id, symbol, hnode⟩ := Context.exists_fill_node i path
      obtain ⟨parts, hparts⟩ := hnode run'
      rw [hparts]
      exact leadOf_eq_nil (by simp [Branch.isAsync])
  · exact .inr (by rw [leadOf_append_of_ne_nil _ hpre, leadOf_append_of_ne_nil _ hpre])

theorem Fronts.fold_front {p : NodeId → Prop} {pre post : List Branch}
    (h : Fronts owner suite root g above x header)
    (hroot' : Context.fill (path ++ f :: up) run' = [root'])
    (hafter : f.after = pre ++ b :: post) (hfill : inner.fill [x] = [b])
    (hplace : g :: above =
      inner ++ ⟨f.id, f.symbol, f.before ++ path.fill run ++ pre, post⟩ :: up)
    (hsuites : ∀ b ∈ run, b.isSuite = false)
    (hverbatim : ∀ b ∈ run', ∃ token, b = .leaf new token ∧ token.kind = .verbatim)
    (hend : path = [] → run' = [] → ∀ b ∈ f.after.head?, b.isSuite = true)
    (hremains : Remains p (Branch.leavesOfAll run) (Branch.leavesOfAll run')) :
    ∃ g' above' header', Fronts owner suite root' g' above' x header' ∧
      (leadIn above' = [] ∨ leadIn above' = leadIn above) ∧
        Remains p (Branch.leavesOfAll header) (Branch.leavesOfAll header') := by
  have hroot' := (Context.fill_after hfill hafter path up run').trans hroot'
  cases inner with
  | nil =>
    obtain ⟨rfl, rfl⟩ := List.cons.inj hplace
    obtain ⟨done, hheader⟩ := h.header_of
    have hfree : ∀ b ∈ run', b.isSuite = false := fun b hb => by
      obtain ⟨token, rfl, -⟩ := hverbatim b hb
      rfl
    obtain ⟨done', header', hheader', hleft⟩ := hheader.exchange (hremains.fill path) (by
      cases path with
      | nil => exact .inl ⟨hsuites, hfree⟩
      | cons i path =>
        obtain ⟨id, symbol, hnode⟩ := Context.exists_fill_node i path
        obtain ⟨parts, hparts⟩ := hnode run
        obtain ⟨parts', hparts'⟩ := hnode run'
        rw [hparts, hparts']
        cases hsymbol : decide (symbol = .suite) with
        | false => simp [Branch.isSuite, hsymbol]
        | true => exact .inr ⟨_, _, rfl, rfl, hsymbol, hsymbol⟩)
    exact ⟨_, _, header', ⟨hroot', h.owner_id, h.suite_id, h.owner_symbol, h.is_suite,
      ⟨done', hheader'⟩⟩, .inr rfl, hleft⟩
  | cons i inner =>
    obtain ⟨rfl, rfl⟩ := List.cons.inj hplace
    refine ⟨_, _, header, h.relocate hroot' rfl rfl rfl rfl rfl, ?_, .refl _ _⟩
    cases inner with
    | cons j inner => exact .inr rfl
    | nil =>
      refine leadOf_fold hverbatim (fun hpath hrun' hpre => ?_) f.before
      have hb := hend hpath hrun' b (by rw [hafter, hpre]; rfl)
      rw [← List.singleton_inj.mp hfill] at hb
      exact h.owner_symbol (by simpa [Branch.isSuite] using hb)

/-- What a fold of a gap does to a suite, unless all of its header and the node around it go. -/
theorem Fronts.fold {p : NodeId → Prop} (h : Fronts owner suite root g above x header)
    (hroot : Context.fill (f :: up) run = [root])
    (hroot' : Context.fill (f :: up) run' = [root']) {n : NodeId}
    (hn : n ∈ marks owner (Branch.leavesOfAll header)) (hspared : n ∉ Branch.idsOfAll run)
    (hsuites : ∀ b ∈ run, b.isSuite = false)
    (hverbatim : ∀ b ∈ run', ∃ token, b = .leaf new token ∧ token.kind = .verbatim)
    (hend : run' = [] → ∀ b ∈ f.after.head?, b.isSuite = true)
    (hremains : Remains p (Branch.leavesOfAll run) (Branch.leavesOfAll run')) :
    ∃ g' above' x' header', Fronts owner suite root' g' above' x' header' ∧
      (leadIn above' = [] ∨ leadIn above' = leadIn above) ∧
        Remains p (Branch.leavesOfAll header) (Branch.leavesOfAll header') := by
  rcases Context.encloses_or_lies (h.place.trans hroot.symm) with ⟨path, hpath, hfill⟩ | hlies
  · cases path with
    | nil =>
      have hx : x ∈ run := by
        rw [show run = [x] from hfill]
        exact List.mem_singleton_self x
      exact absurd h.is_suite (by rw [hsuites x hx]; decide)
    | cons i path =>
      obtain ⟨rfl, rfl⟩ := List.cons.inj hpath
      obtain ⟨x', hx'⟩ := h.fold_inside hroot' hfill
      exact ⟨g, above, x', header, hx', .inr rfl, .refl _ _⟩
  · cases hlies with
    | @within inner up' f' pre post b gap run_eq fill place =>
      cases inner with
      | nil =>
        obtain rfl := List.singleton_inj.mp fill
        exact absurd h.is_suite (by rw [hsuites x (by simp [run_eq])]; decide)
      | cons i inner =>
        obtain ⟨rfl, -⟩ := List.cons.inj place
        have hmem : n ∈ Branch.idsOfAll (Context.fill (g :: inner) [x] ++ []) :=
          Context.mem_idsOfAll_fill.mpr (.inr (.inl (h.marks_subset hn)))
        rw [List.append_nil, fill] at hmem
        refine absurd ?_ hspared
        rw [run_eq, Branch.idsOfAll_append]
        simp only [Branch.idsOfAll, List.append_nil] at hmem ⊢
        exact List.mem_append_right _ (List.mem_append_left _ hmem)
    | @before inner path up' f' pre post b gap before_eq fill place =>
      obtain ⟨g', above', hfronts, hlead⟩ :=
        h.fold_behind (gap ▸ hroot') before_eq fill place
      exact ⟨g', above', x, header, hfronts, .inr hlead, .refl _ _⟩
    | @after inner path up' f' pre post b gap after_eq fill place =>
      have hend' : path = [] → run' = [] → ∀ b ∈ f'.after.head?, b.isSuite = true := by
        rintro rfl hnil
        obtain ⟨rfl, -⟩ := List.cons.inj gap
        exact hend hnil
      obtain ⟨g', above', header', hfronts, hlead, hleft⟩ :=
        h.fold_front (gap ▸ hroot') after_eq fill place hsuites hverbatim hend' hremains
      exact ⟨g', above', x, header', hfronts, hlead, hleft⟩

/-- A suite is followed through a fold of a gap with no suite in it. -/
theorem Followed.fold (h : Followed owner suite lead leaves root) (hnodup : root.ids.Nodup)
    (hroot : Context.fill (f :: up) run = [root]) (hroot' : Context.fill (f :: up) run' = [root'])
    (hmarks : ∀ n ∈ marks owner leaves, n ≠ new) (hsuites : ∀ b ∈ run, b.isSuite = false)
    (hverbatim : ∀ b ∈ run', ∃ token, b = .leaf new token ∧ token.kind = .verbatim)
    (hend : run' = [] → ∀ b ∈ f.after.head?, b.isSuite = true)
    (hremains : Remains (· ∉ Branch.idsOfAll run) (Branch.leavesOfAll run)
      (Branch.leavesOfAll run')) : Followed owner suite lead leaves root' := by
  have hids (run : List Branch) (root : Branch) (hroot : Context.fill (f :: up) run = [root]) :
      root.ids.Perm (Branch.idsOfAll run ++ Context.ids (f :: up)) := by
    have hperm := Context.idsOfAll_fill (f :: up) run
    rwa [hroot, Branch.idsOfAll, Branch.idsOfAll, List.append_nil] at hperm
  have hback {n : NodeId} (hn : n ∈ root'.ids) (hnew : n ≠ new) :
      n ∈ root.ids ∧ n ∉ Branch.idsOfAll run := by
    have hbeside : n ∈ Context.ids (f :: up) := by
      refine (List.mem_append.mp ((hids run' root' hroot').subset hn)).resolve_left fun hmem => ?_
      rw [Branch.idsOfAll_eq_flatMap, List.mem_flatMap] at hmem
      obtain ⟨b, hb, hmem⟩ := hmem
      obtain ⟨token, rfl, -⟩ := hverbatim b hb
      exact hnew (List.mem_singleton.mp hmem)
    refine ⟨(hids run root hroot).symm.subset (List.mem_append_right _ hbeside), fun hmem => ?_⟩
    exact (List.nodup_append.mp ((hids run root hroot).nodup hnodup)).2.2 n hmem n hbeside rfl
  have hleaf {x : NodeId × Leaf} (hx : x ∈ leaves) : x.1 ∈ marks owner leaves :=
    List.mem_cons_of_mem _ (List.mem_map_of_mem hx)
  intro n hn hmem
  obtain ⟨hold, hrun⟩ := hback hmem (hmarks n hn)
  obtain ⟨g, above, x, header, hfronts, hlead, hleft⟩ := h n hn hold
  have hheader : n ∈ marks owner (Branch.leavesOfAll header) := by
    rcases List.mem_cons.mp hn with rfl | hn
    · exact List.mem_cons_self
    · obtain ⟨x, hx, rfl⟩ := List.mem_map.mp hn
      exact List.mem_cons_of_mem _ (List.mem_map_of_mem (hleft.keeps x hx hold))
  obtain ⟨g', above', x', header', hfronts', hlead', hleft'⟩ :=
    hfronts.fold hroot hroot' hheader hrun hsuites hverbatim hend hremains
  refine ⟨g', above', x', header', hfronts', ?_, hleft.trans hleft' fun x hx hn =>
    hback hn (hmarks _ (hleaf hx))⟩
  rcases hlead' with hnil | hsame
  · exact .inl hnil
  · rwa [hsame]

theorem Followed.siblings {leaf : Leaf} {more : List Leaf} {text : String}
    (h : Followed owner suite lead leaves root) (hnodup : root.ids.Nodup)
    (hroot : Context.fill (f :: up) run = [root])
    (hroot' : Context.fill (f :: up) [.leaf new (verbatim leaf text)] = [root'])
    (hmarks : ∀ n ∈ marks owner leaves, n ≠ new) (hsuites : ∀ b ∈ run, b.isSuite = false)
    (tokens : (Branch.leavesOfAll run).map Prod.snd = leaf :: more) :
    Followed owner suite lead leaves root' := by
  obtain ⟨x, hx, rfl⟩ : ∃ x ∈ Branch.leavesOfAll run, x.2 = leaf :=
    List.mem_map.mp (tokens ▸ List.mem_cons_self)
  refine h.fold hnodup hroot hroot' hmarks hsuites (by simp [verbatim]) nofun (.of_stems ?_)
  exact List.forall_mem_singleton.mpr ⟨rfl, x, hx, Nat.le_refl _⟩

/-- An `async` and the header behind it give way to a verbatim leaf. -/
theorem Followed.keyword {key node : NodeId} {token : Leaf} {symbol : Symbol}
    {pre post : List Branch} {text : String} (h : Followed owner suite lead leaves root)
    (hnodup : root.ids.Nodup)
    (hroot : Context.fill (f :: up) [.leaf key token, .node node symbol (pre ++ header ++ post)] =
      [root])
    (hroot' : Context.fill (f :: up)
      [.leaf new (verbatim token text), .node node symbol (pre ++ post)] = [root'])
    (hmarks : ∀ n ∈ marks owner leaves, n ≠ new) (hsuites : ∀ b ∈ header, b.isSuite = false)
    (hnext : ∀ b ∈ post.head?, b.isSuite = true) : Followed owner suite lead leaves root' := by
  have hinner (run : List Branch) : Context.fill (⟨node, symbol, pre, post⟩ ::
      ⟨f.id, f.symbol, f.before ++ [.leaf key token], f.after⟩ :: up) run =
      Context.fill (f :: up) [.leaf key token, .node node symbol (pre ++ run ++ post)] := by
    simp [Context.fill]
  have houter (b : Branch) : Context.fill (⟨f.id, f.symbol, f.before,
      .node node symbol (pre ++ post) :: f.after⟩ :: up) [b] =
      Context.fill (f :: up) [b, .node node symbol (pre ++ post)] := by
    simp [Context.fill]
  obtain ⟨top, htop⟩ := Context.exists_fill_cons f up
  obtain ⟨mid, hmid, -⟩ := htop [.leaf key token, .node node symbol (pre ++ [] ++ post)]
  have hfollowed : Followed owner suite lead leaves mid :=
    h.fold hnodup ((hinner header).trans hroot) ((hinner []).trans hmid) hmarks hsuites nofun
      (fun _ => hnext) (.of_stems nofun)
  have hnodup' : mid.ids.Nodup := by
    have hperm := Context.idsOfAll_fill (⟨node, symbol, pre, post⟩ ::
      ⟨f.id, f.symbol, f.before ++ [.leaf key token], f.after⟩ :: up)
    have hbefore := hperm header
    have hafter := hperm []
    rw [hinner, hroot] at hbefore
    rw [hinner, hmid] at hafter
    simp only [Branch.idsOfAll, List.append_nil, List.nil_append] at hbefore hafter
    exact hafter.symm.nodup (List.nodup_append.mp (hbefore.nodup hnodup)).2.1
  rw [List.append_nil, ← houter] at hmid
  exact hfollowed.siblings hnodup' hmid ((houter _).trans hroot') hmarks
    (List.forall_mem_singleton.mpr rfl) rfl

end Fold

section Folds

variable {keep : LineSet} {gone : List NodeId} {t : Tree} {forest forest' : List Branch}
  {root : Branch}

/-- All suites are followed through a step. -/
theorem Folds.followed (h : Folds keep t.size gone forest forest') (ht : t.Holds forest)
    (hgone : ∀ n ∈ gone, t.symbol? n ≠ some .suite) (hroot : root ∈ forest) :
    ∃ root' ∈ forest', root'.id = root.id ∧
      ∀ {owner suite : NodeId} {lead : List Branch} {leaves : List (NodeId × Leaf)},
        (∀ n ∈ marks owner leaves, n < t.size) → Followed owner suite lead leaves root →
          Followed owner suite lead leaves root' := by
  have hnodup := Branch.ids_nodup_of_mem ht.nodup hroot
  have hspared {parent : Option NodeId} {run : List Branch} (hgrows : ∀ b ∈ run, t.Grows parent b)
      (hrun : ∀ n ∈ run.map Branch.id, t.symbol? n ≠ some .suite) :
      ∀ b ∈ run, b.isSuite = false := by
    intro b hb
    rw [Bool.eq_false_iff, Ne, Branch.isSuite_iff, ← (hgrows b hb).symbol?_eq]
    exact hrun b.id (List.mem_map_of_mem hb)
  cases h with
  | @siblings f above head rest others leaf more tokens clear =>
    rcases List.mem_append.mp hroot with hmem | hmem
    · obtain ⟨top, htop⟩ := Context.exists_fill_cons f above
      obtain ⟨b, hb, hbtop⟩ := htop (head :: rest)
      obtain ⟨b', hb', hbtop'⟩ :=
        htop [.leaf t.size (verbatim leaf (Leaf.render (leaf.bare :: more)))]
      rw [hb, List.mem_singleton] at hmem
      subst hmem
      refine ⟨b', by simp [hb'], hbtop'.trans hbtop.symm, fun hmarks hfollowed => ?_⟩
      exact hfollowed.siblings hnodup hb hb' (fun n hn => (hmarks n hn).ne)
        (hspared ht.run_grows hgone) tokens
    · exact ⟨root, by simp [hmem], rfl, fun _ hfollowed => hfollowed⟩
  | @keyword f above key node token symbol pre header post others suite clear =>
    rcases List.mem_append.mp hroot with hmem | hmem
    · obtain ⟨top, htop⟩ := Context.exists_fill_cons f above
      obtain ⟨b, hb, hbtop⟩ := htop [.leaf key token, .node node symbol (pre ++ header ++ post)]
      obtain ⟨b', hb', hbtop'⟩ := htop [.leaf t.size (verbatim token
        (Leaf.render (token.bare :: (Branch.leavesOfAll header).map Prod.snd))),
        .node node symbol (pre ++ post)]
      rw [hb, List.mem_singleton] at hmem
      subst hmem
      have hheader : ∀ b ∈ header, t.Grows (some node) b := fun b hb =>
        (ht.run_grows _ (List.mem_cons_of_mem _ (List.mem_singleton_self _))).part (by simp [hb])
      have hnext : ∀ b ∈ post.head?, b.isSuite = true := by
        obtain ⟨x, hx, hsymbol⟩ := suite
        rintro b hb
        obtain rfl := Option.some.inj (hx.symm.trans hb)
        exact Branch.isSuite_iff.mpr hsymbol
      refine ⟨b', by simp [hb'], hbtop'.trans hbtop.symm, fun hmarks hfollowed => ?_⟩
      exact hfollowed.keyword hnodup hb hb' (fun n hn => (hmarks n hn).ne)
        (hspared hheader (List.forall_mem_cons.mp hgone).2) hnext
    · exact ⟨root, by simp [hmem], rfl, fun _ hfollowed => hfollowed⟩

end Folds

/-- What a collapse keeps of suites that are shut off: each that is followed at the start still is. -/
structure Follows (start : Branch) (listed : List NodeId) (t : Tree) (forest : List Branch)
    (root : Branch) : Prop where
  standing : Standing listed t forest root
  walled : ∀ b ∈ forest, b.shape.Walled
  known : ∀ n ∈ start.ids, n < t.size
  followed : ∀ {owner suite : NodeId} {lead : List Branch} {leaves : List (NodeId × Leaf)},
    (∀ n ∈ marks owner leaves, n ∈ start.ids) → Followed owner suite lead leaves start →
      Followed owner suite lead leaves root

theorem follows_persists (keep : LineSet) (start : Branch) : Persists keep (Follows start) where
  standing h := h.standing
  stepped {listed t u forest root} h hstep := by
    cases hstep with
    | stay => exact ⟨forest, root, h⟩
    | @fold u gone before after perm folds holds size parent? spares =>
      obtain ⟨root', hmem, hid, hfollowed⟩ := folds.followed (h.standing.holds.of_perm perm)
        (spares h.walled) (perm.subset h.standing.root_mem)
      refine ⟨after, root', ⟨holds, folds.full fun b hb => h.standing.full b (perm.symm.subset hb),
        hmem, hid.trans h.standing.root_id, fun n hn => ?_⟩,
        folds.walled fun b hb => h.walled b (perm.symm.subset hb), fun n hn => ?_, ?_⟩
      · exact folds.subset_ids ((Branch.idsOfAll_perm perm).subset (h.standing.listed_mem n hn))
      · rw [size]
        exact (h.known n hn).trans (Nat.lt_succ_self _)
      · intro owner suite lead leaves hmarks hstart
        exact hfollowed (fun n hn => h.known n (hmarks n hn)) (h.followed hmarks hstart)
  relist h hlisted := ⟨⟨h.standing.holds, h.standing.full, h.standing.root_mem, h.standing.root_id,
    fun n hn => Branch.ids_subset_idsOfAll h.standing.root_mem (hlisted n hn)⟩, h.walled, h.known,
    h.followed⟩

end Collapse

end LineScope
