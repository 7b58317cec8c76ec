import LineScope.Proofs.Collapse.Alignment
import LineScope.Proofs.Collapse.Idling

/-!
# Collapsing once more

A second collapse for the same ranges finds nothing to do but the verbatim headers that stand in
front of a newline. It folds each of them to a leaf of the same text, so the file stays the same up to
the numbers of its verbatim leaves. It ends at the first suite whose header went with its `async`, if
there is one.
-/
namespace LineScope

namespace Context

theorem sameShape_symm {c c' : Context} (h : List.Forall₂ Frame.SameShape c c') :
    List.Forall₂ Frame.SameShape c' c :=
  h.flip.imp fun _ _ hfg => ⟨⟨hfg.symbol.symm, hfg.before.symm⟩, hfg.after.symm⟩

theorem left_tokens_congr {c c' : Context} (h : List.Forall₂ Frame.SameShape c c') :
    c.left.map Prod.snd = c'.left.map Prod.snd := by
  induction h with
  | nil => rfl
  | @cons f f' above above' hf habove ih =>
    have hbefore := Collapse.tokensOfAll_congr hf.before
    rw [Branch.tokensOfAll, Branch.tokensOfAll] at hbefore
    rw [left, left, List.map_append, List.map_append, ih, hbefore]

/-- Runs of the same shapes fill a gap to the same shapes. -/
theorem fill_shapes {c : Context} {run run' : List Branch}
    (h : run.map Branch.shape = run'.map Branch.shape) :
    (c.fill run).map Branch.shape = (c.fill run').map Branch.shape := by
  induction c generalizing run run' with
  | nil => exact h
  | cons f above ih =>
    refine ih ?_
    simp [Branch.shape, h]

theorem full_run {c : Context} {run : List Branch} {root : Branch} (hplace : c.fill run = [root])
    (hfull : root.shape.Full) : ∀ b ∈ run, b.shape.Full := by
  refine full_of_fill (c := c) ?_
  rw [hplace]
  exact List.forall_mem_singleton.mpr hfull

end Context

/-- The newline of a suite with no header in front of it: nothing, or the suite of another clause. -/
def Tree.Headless (t : Tree) (newline : NodeId) : Prop :=
  ∃ suite, t.parent? newline = some suite ∧ t.symbol? suite = some .suite ∧
    ∀ prev ∈ t.prevSibling? suite, t.isSymbol prev .suite = true

/-- The store holds a tree of this shape below its root, and maybe others. -/
def Tree.Bears (t : Tree) (shape : Shape) : Prop :=
  ∃ root others, root.id = rootId ∧ root.shape = shape ∧ t.Holds (root :: others)

namespace Collapse

open LineScope.Tree Text Leaf Grammar

/-- A verbatim leaf in front of a newline does not end in a line break. -/
def Crisp (tokens : List Leaf) : Prop :=
  tokens.IsChain fun a b => a.kind = .verbatim → b.kind = .newline → ¬Breaks a.value

theorem crisp_of_fresh {tokens : List Leaf} (h : ∀ x ∈ tokens, x.kind ≠ .verbatim) :
    Crisp tokens := by
  refine List.Pairwise.isChain (List.pairwise_of_forall_mem_list fun a ha b _ hkind => ?_)
  exact absurd hkind (h a ha)

theorem Coarsens.crisp {a b : List Leaf} (h : Coarsens Spoken a b) (ha : Crisp a) : Crisp b := by
  induction h with
  | refl tokens => exact ha
  | trans first second ihfirst ihsecond => exact ihsecond (ihfirst ha)
  | append opens left right ihleft ihright =>
    rw [Crisp, List.isChain_append] at ha ⊢
    refine ⟨ihleft ha.1, ihright ha.2.1, fun x _ y hy _ hkind => ?_⟩
    exact absurd hkind (right.opens opens y hy)
  | @closed run starts ends =>
    cases run with
    | nil => exact .nil
    | cons x more => exact .singleton _
  | @header run newline spoken kind =>
    cases run with
    | nil => exact .singleton _
    | cons x more =>
      refine List.isChain_pair.mpr fun _ _ => ?_
      rw [verbatim, stripTerminator_of_not_breaks spoken.not_breaks_bare]
      exact spoken.not_breaks_bare

/-- The place of the newline of a suite with no header in front of it. -/
def Lost : Context → Prop
  | [] => False
  | [s] => s.symbol = .suite
  | s :: g :: _ => s.symbol = .suite ∧ ∀ b ∈ g.before.getLast?, b.isSuite = true

section Lost

variable {t : Tree} {c c' above : Context} {s g : Frame} {x : Branch} {others : List Branch}

theorem Lost.symbol (h : Lost (s :: above)) : s.symbol = .suite := by
  cases above with
  | nil => exact h
  | cons g above => exact h.1

theorem Lost.congr (h : Lost c) (hc : List.Forall₂ Frame.SameShape c c') : Lost c' := by
  cases hc with
  | nil => exact h
  | @cons s s' above above' hs habove =>
    cases habove with
    | nil => exact hs.symbol.symm.trans h
    | @cons g g' above above' hg habove =>
      exact ⟨hs.symbol.symm.trans h.1, suite_last_congr hg.before h.2⟩

theorem lost_congr (hc : List.Forall₂ Frame.SameShape c c') : Lost c ↔ Lost c' :=
  ⟨fun h => h.congr hc, fun h => h.congr (Context.sameShape_symm hc)⟩

theorem headless_iff (h : t.Holds (c.fill [x] ++ others)) : t.Headless x.id ↔ Lost c := by
  have hparent : t.parent? x.id = c.parent := h.parent? (List.mem_singleton_self x)
  cases c with
  | nil => exact ⟨fun ⟨_, hsuite, _⟩ => (by rw [hparent] at hsuite; cases hsuite), False.elim⟩
  | cons s above =>
    have hsymbol : t.symbol? s.id = some s.symbol := h.symbol?_parent
    have howner : t.Holds (Context.fill above
      [.node s.id s.symbol (s.before ++ [x] ++ s.after)] ++ others) := h
    have hiff : t.Headless x.id ↔
        s.symbol = .suite ∧ ∀ prev ∈ t.prevSibling? s.id, t.isSymbol prev .suite = true := by
      constructor
      · rintro ⟨suite, hsuite, hform, hlast⟩
        obtain rfl := Option.some.inj (hparent.symm.trans hsuite)
        exact ⟨Option.some.inj (hsymbol.symm.trans hform), hlast⟩
      · rintro ⟨hform, hlast⟩
        exact ⟨s.id, hparent, hform ▸ hsymbol, hlast⟩
    rw [hiff]
    cases above with
    | nil =>
      have htop : t.parent? s.id = none := howner.parent? (List.mem_singleton_self _)
      simp [Lost, prevSibling?, siblings?, htop]
    | cons g above =>
      have hprev : t.prevSibling? s.id = g.before.getLast?.map Branch.id := howner.prevSibling?
      rw [hprev, Lost]
      refine and_congr_right fun _ => ?_
      have hgrows : ∀ b ∈ g.before.getLast?, t.isSymbol b.id .suite = b.isSuite := fun b hb =>
        isSymbol_suite (howner.surrounds.2.1 b (List.mem_append_left _ (List.mem_of_getLast? hb)))
      cases hlast : g.before.getLast? with
      | none => simp
      | some b => simp [hgrows b hlast]

end Lost

/-- A store of a file that has the shape and the newlines of another. -/
structure Resembles (root : Branch) (t : Tree) (root' : Branch) (others : List Branch) : Prop where
  holds : t.Holds (root' :: others)
  root_id : root'.id = rootId
  shape : root'.shape = root.shape
  newlines : newlineIds root'.leaves = newlineIds root.leaves

/-- A step that succeeds and keeps the file up to the numbers of its verbatim leaves. -/
def Repeats (root : Branch) (o : Outcome Bool) : Prop :=
  ∃ done root' others, o.result = .ok done ∧ Resembles root o.tree root' others

section Places

variable {root root' : Branch} {c : Context} {n m : NodeId} {token : Leaf}

theorem length_newlineIds {xs ys : List (NodeId × Leaf)} (h : xs.map Prod.snd = ys.map Prod.snd) :
    (newlineIds xs).length = (newlineIds ys).length := by
  have hlength (zs : List (NodeId × Leaf)) :
      (newlineIds zs).length = ((zs.map Prod.snd).filter fun x => x.kind = .newline).length := by
    rw [newlineIds, List.filter_map, List.length_map, List.length_map]
    rfl
  rw [hlength, hlength, h]

/-- A newline has the same place in both files. -/
theorem Resembles.exists_place {t : Tree} {others : List Branch} (h : Resembles root t root' others)
    (hplace : c.fill [.leaf n token] = [root']) (hkind : token.kind = .newline) :
    ∃ d : Context, d.fill [.leaf n token] = [root] ∧ List.Forall₂ Frame.SameShape d c := by
  obtain ⟨d, x, hfill, hx, hsame⟩ := Context.exists_same_place hplace h.shape
  obtain ⟨m, rfl⟩ := Branch.exists_leaf hx.symm
  have hcount := length_newlineIds (Context.left_tokens_congr hsame)
  have hids := h.newlines
  rw [newlineIds_place hplace hkind, newlineIds_place hfill hkind] at hids
  obtain ⟨rfl, -⟩ := List.cons.inj (List.append_inj_right hids hcount)
  exact ⟨d, hfill, Context.sameShape_symm hsame⟩

theorem exists_newline {t : Tree} {others : List Branch} (h : t.Holds (root :: others))
    (hn : n ∈ newlineIds root.leaves) :
    ∃ (c : Context) (token : Leaf), c.fill [.leaf n token] = [root] ∧ token.kind = .newline := by
  obtain ⟨⟨n, token⟩, hmem, rfl⟩ := List.mem_map.mp hn
  obtain ⟨hmem, hkind⟩ := List.mem_filter.mp hmem
  have hleaf := (h.grows root List.mem_cons_self).leaf?_of_mem hmem
  obtain ⟨c, x, hplace, hx⟩ := Context.exists_fill
    (root.leaves_map_fst_sublist.subset (List.mem_map_of_mem hmem))
  have hholds : t.Holds (c.fill [x] ++ others) := hplace ▸ h
  have hgrows := hholds.run_grows x (List.mem_singleton_self x)
  cases x with
  | node id symbol parts =>
    obtain rfl : id = n := hx
    rw [hgrows.leaf?_node] at hleaf
    cases hleaf
  | leaf id token' =>
    obtain rfl : id = n := hx
    rw [hgrows.leaf?_leaf] at hleaf
    obtain rfl := Option.some.inj hleaf
    exact ⟨c, token', hplace, by simpa using hkind⟩

end Places

section Again

variable {keep : LineSet} {led : Prop} {t u : Tree} {root root' : Branch}
  {others others' run : List Branch} {f : Frame} {above : Context} {n m : NodeId} {leaf : Leaf}

theorem Resembles.stay (h : Resembles root t root' others) (done : Bool) :
    Repeats root ⟨t, .ok done⟩ := ⟨done, root', others, rfl, h⟩

/-- A leaf other than a newline may get another number. -/
theorem Resembles.renumber (h : Resembles root t root' others)
    (hplace : Context.fill (f :: above) [.leaf n leaf] = [root']) (hkind : leaf.kind ≠ .newline)
    (hu : u.Holds (Context.fill (f :: above) [.leaf m leaf] ++ others')) (done : Bool) :
    Repeats root ⟨u, .ok done⟩ := by
  obtain ⟨top, htop⟩ := Context.exists_fill_cons f above
  obtain ⟨b, hb, hbid⟩ := htop [.leaf m leaf]
  obtain ⟨b', hb', hbid'⟩ := htop [.leaf n leaf]
  obtain rfl := List.singleton_inj.mp (hplace.symm.trans hb')
  have hshape := @Context.fill_shapes (f :: above) [.leaf m leaf] [.leaf n leaf] rfl
  rw [hb, hplace, List.map_singleton, List.map_singleton, List.singleton_inj] at hshape
  rw [hb] at hu
  refine ⟨done, b, others', rfl, hu, by rw [hbid, ← hbid', h.root_id], hshape.trans h.shape, ?_⟩
  rw [← h.newlines, Context.leaves_of_fill hb, Context.leaves_of_fill hplace]
  simp [newlineIds_leaf_of_ne hkind]

theorem verbatim_self (hkind : leaf.kind = .verbatim) (hbreaks : ¬Breaks leaf.value) :
    verbatim leaf (Leaf.render [leaf.bare]) = leaf := by
  have hrender : Leaf.render [leaf.bare] = leaf.value := by
    simp [Leaf.render, Leaf.breakAfter, Leaf.bare]
  rw [verbatim, hrender, stripTerminator_of_not_breaks hbreaks, ← hkind]

/-- In front of a newline a verbatim leaf does not end in a line break. -/
theorem Crisp.not_breaks (h : Crisp root'.shape.tokens)
    (hplace : Context.fill (f :: above) [.leaf n leaf] = [root']) (hkind : leaf.kind = .verbatim)
    (hnext : ∃ x ∈ (Context.right (f :: above)).head?, x.2.kind = .newline) :
    ¬Breaks leaf.value := by
  obtain ⟨x, hx, hnewline⟩ := hnext
  obtain ⟨more, hright⟩ := List.head?_eq_some_iff.mp hx
  rw [Branch.tokens_shape, Context.leaves_of_fill hplace, hright, Branch.leavesOfAll, Branch.leaves,
    Branch.leavesOfAll, List.append_nil, List.append_assoc, List.singleton_append, Crisp,
    List.map_append, List.isChain_append] at h
  exact (List.isChain_cons_cons.mp h.2.1).1 hkind hnewline

theorem Resembles.header (h : Resembles root t root' others)
    (hplace : Context.fill (f :: above) run = [root']) (hfull : root'.shape.Full)
    (hcrisp : Crisp root'.shape.tokens) (hkept : Kept keep run)
    (hnext : ∃ x ∈ (Context.right (f :: above)).head?, x.2.kind = .newline) :
    Repeats root (collapseHeader keep t (.ok (run.map Branch.id))) := by
  have hholds : t.Holds (Context.fill (f :: above) run ++ others) := hplace ▸ h.holds
  rw [collapseHeader, misses_eq_clear keep (fun b hb => ⟨_, hholds.run_grows b hb⟩) hholds.run_nodup
    (Context.full_run hplace hfull)]
  rcases hkept with hclear | ⟨n, leaf, rfl, hkind⟩
  · rw [Branch.tokensOfAll] at hclear
    rw [hclear]
    exact h.stay false
  · split
    · have htokens : (Branch.leavesOfAll [.leaf n leaf]).map Prod.snd = leaf :: [] := rfl
      obtain ⟨u, hok, -, hu, -⟩ := collapseRun_siblings hholds (.leaf leaf) htokens
      rw [verbatim_self hkind (hcrisp.not_breaks hplace hkind hnext)] at hu
      rw [hok]
      refine h.renumber hplace ?_ hu true
      rw [hkind]
      decide
    · exact h.stay false

theorem HeaderOf.not_lost {s g : Frame} {done header : List Branch}
    (h : HeaderOf g.before done header) (hne : header ≠ []) : ¬Lost (s :: g :: above) := by
  rintro ⟨-, hlast⟩
  obtain ⟨init, b, rfl⟩ := (List.eq_nil_or_concat header).resolve_left hne
  have hb : g.before.getLast? = some b := by rw [h.split, List.getLast?_append_of_ne_nil _ hne]; simp
  have hsuite := hlast b hb
  rw [h.header_suite b (by simp)] at hsuite
  cases hsuite

theorem Resembles.line (h : Resembles root t root' others) {c : Context} {token : Leaf}
    (hplace : c.fill [.leaf n token] = [root']) (hfull : root'.shape.Full)
    (hsettled : LineSettled keep (.leaf n token) c) :
    Repeats root (logicalLine keep t n) ∧ ¬Lost c := by
  obtain ⟨f, hf, hform⟩ := hsettled.form
  obtain ⟨above, rfl⟩ := List.head?_eq_some_iff.mp hf
  have hholds : t.Holds (Context.fill (f :: above) [.leaf n token] ++ others) := hplace ▸ h.holds
  have hstep := hsettled.stays hholds (rooted_of_fill h.root_id hplace)
    (by simpa [hplace] using hfull)
  rw [Branch.id] at hstep
  rw [hstep]
  refine ⟨h.stay false, fun hlost => ?_⟩
  rw [hlost.symbol] at hform
  rcases hform with hform | hform <;> cases hform

theorem Resembles.suite (h : Resembles root t root' others) {s g : Frame} {done header : List Branch}
    {token : Leaf} (hplace : Context.fill (s :: g :: above) [.leaf n token] = [root'])
    (hkind : token.kind = .newline) (hfull : root'.shape.Full) (hcrisp : Crisp root'.shape.tokens)
    (hs : s.symbol = .suite) (hopens : s.before = []) (hheader : HeaderOf g.before done header)
    (hne : header ≠ []) (hkept : Kept keep (leadIn above ++ header)) :
    Repeats root (logicalLine keep t n) := by
  have hholds : t.Holds (Context.fill (s :: g :: above) [.leaf n token] ++ others) := hplace ▸ h.holds
  have hstep := @logicalLine_opens keep t _ s _ others hholds (rooted_of_fill h.root_id hplace) hs
  have howner : t.Holds (Context.fill (g :: above)
    [.node s.id s.symbol (s.before ++ [.leaf n token] ++ s.after)] ++ others) := hholds
  have hsuite := suiteHeader_led howner hheader hne n
  simp only [Branch.id] at hstep hsuite
  rw [hstep, hsuite]
  have hfill : Context.fill (⟨g.id, g.symbol, done,
      .node s.id s.symbol (s.before ++ [.leaf n token] ++ s.after) :: g.after⟩ :: above) header =
      [root'] := by
    rw [← hplace]
    simp [Context.fill, hheader.split]
  rcases leadIn_cases above with hnil | ⟨e, up, pre, key, lead, rfl, hbefore, hasync⟩
  · rw [hnil, List.nil_append] at hkept ⊢
    refine h.header hfill hfull hcrisp hkept ⟨(n, token), ?_, hkind⟩
    rw [Context.right, Branch.leavesOfAll, Branch.leaves, hopens]
    rfl
  · rw [leadIn_async hbefore hasync] at hkept ⊢
    have hclear : clear keep (lead :: Branch.tokensOfAll header) = false := by
      rcases hkept with hclear | ⟨m, leaf, hrun, -⟩
      · exact hclear
      · exact absurd (List.cons.inj hrun).2 hne
    have hled : Context.fill (⟨e.id, e.symbol, pre, e.after⟩ :: up) [.leaf key lead,
        .node g.id g.symbol (done ++ header ++
          .node s.id s.symbol (s.before ++ [.leaf n token] ++ s.after) :: g.after)] = [root'] := by
      rw [← hplace]
      simp [Context.fill, hbefore, hheader.split]
    have hmisses := @misses_keyword t _ up others keep key g.id lead g.symbol done header _
      (by rw [hled]; exact h.holds) (Context.full_run hfill hfull)
    rw [List.map_append, List.map_singleton, List.singleton_append, collapseHeader, Branch.id,
      hmisses, ← Branch.tokensOfAll, hclear]
    exact h.stay false

theorem Resembles.headed (h : Resembles root t root' others) {c : Context} {token : Leaf}
    (hplace : c.fill [.leaf n token] = [root']) (hkind : token.kind = .newline)
    (hfull : root'.shape.Full) (hcrisp : Crisp root'.shape.tokens)
    (hsettled : HeaderSettled keep led c) :
    Repeats root (logicalLine keep t n) ∧ ¬Lost c ∨
      logicalLine keep t n = ⟨t, .error (.emptyGroup n .suite)⟩ ∧ Lost c ∧ led := by
  have hholds : t.Holds (c.fill [.leaf n token] ++ others) := hplace ▸ h.holds
  cases hsettled with
  | @choice s above form header kept =>
    have hrooted := rooted_of_fill h.root_id hplace
    have hstep := @logicalLine_match keep t _ _ _ _ hholds form hrooted header
    have hfill : Context.fill (⟨s.id, s.symbol, [], .leaf n token :: s.after⟩ :: above) s.before =
        [root'] := by
      rw [← hplace]
      simp [Context.fill]
    rw [Branch.id] at hstep
    rw [hstep]
    refine .inl ⟨h.header hfill hfull hcrisp kept ⟨(n, token), rfl, hkind⟩, fun hlost => ?_⟩
    have hsymbol := hlost.symbol
    rw [form] at hsymbol
    cases hsymbol
  | suite form opens header_of nonempty kept last =>
    exact .inl ⟨h.suite hplace hkind hfull hcrisp form opens header_of nonempty kept,
      header_of.not_lost nonempty⟩
  | @bare s g above form opens done_last lead behind =>
    have hrooted := rooted_of_fill h.root_id hplace
    have hstep := @logicalLine_bare keep t above s g _ others hholds hrooted form done_last
    exact .inr ⟨hstep, ⟨form, done_last⟩, behind⟩

/-- A newline that is dealt with, once more. -/
theorem Underway.again (hu : Underway keep led [] u root others) (hcrisp : Crisp root.shape.tokens)
    (h : Resembles root t root' others') (hn : n ∈ newlineIds root.leaves) :
    Repeats root (logicalLine keep t n) ∧ ¬u.Headless n ∨
      logicalLine keep t n = ⟨t, .error (.emptyGroup n .suite)⟩ ∧ u.Headless n ∧ led := by
  obtain ⟨c, token, hplace, hkind⟩ := exists_newline h.holds (h.newlines ▸ hn)
  obtain ⟨d, hd, hsame⟩ := h.exists_place hplace hkind
  have hfull : root'.shape.Full := h.shape ▸ hu.sound.full
  have hlost := headless_iff (hu.fill_holds hd)
  rw [Branch.id, lost_congr hsame] at hlost
  rw [hlost]
  rcases hu.settled d n token hd hkind List.not_mem_nil with hline | hheader
  · exact .inl (h.line hplace hfull (hline.congr hsame rfl))
  · exact h.headed hplace hkind hfull (h.shape ▸ hcrisp)
      (hheader.congr (hsame.imp fun _ _ hfg => hfg.toAlike))

/-- The line pass over a file whose newlines are dealt with ends at the first suite without a header,
or goes through. -/
theorem Underway.sweep_again (hu : Underway keep led [] u root others)
    (hcrisp : Crisp root.shape.tokens) {ns : List NodeId} (h : Resembles root t root' others')
    (hns : ∀ n ∈ ns, n ∈ newlineIds root.leaves) (count : Nat) :
    ∃ v root'' others'', Resembles root v root'' others'' ∧
      ((∃ total, sweep (logicalLine keep) t count ns = ⟨v, .ok total⟩) ∧ (∀ n ∈ ns, ¬u.Headless n) ∨
        ∃ n before after, sweep (logicalLine keep) t count ns = ⟨v, .error (.emptyGroup n .suite)⟩ ∧
          ns = before ++ n :: after ∧ (∀ m ∈ before, ¬u.Headless m) ∧ u.Headless n ∧ led) := by
  induction ns generalizing t root' others' count with
  | nil => exact ⟨t, root', others', h, .inl ⟨⟨count, rfl⟩, by simp⟩⟩
  | cons n ns ih =>
    rw [List.forall_mem_cons] at hns
    rcases hu.again hcrisp h hns.1 with
      ⟨⟨done, root'', others'', hok, hnext⟩, hheaded⟩ | ⟨hstep, hrest⟩
    · have hstep : logicalLine keep t n = ⟨(logicalLine keep t n).tree, .ok done⟩ := by rw [← hok]
      obtain ⟨v, root₃, others₃, hv, hrun⟩ := ih hnext hns.2 (if done then count + 1 else count)
      refine ⟨v, root₃, others₃, hv, ?_⟩
      rw [sweep, hstep]
      rcases hrun with ⟨htotal, hall⟩ | ⟨m, before, after, herror, rfl, hbefore, hrest⟩
      · exact .inl ⟨htotal, List.forall_mem_cons.mpr ⟨hheaded, hall⟩⟩
      · exact .inr ⟨m, n :: before, after, herror, rfl, List.forall_mem_cons.mpr ⟨hheaded, hbefore⟩,
          hrest⟩
    · refine ⟨t, root', others', h, .inr ⟨n, [], ns, ?_, rfl, by simp, hrest⟩⟩
      rw [sweep, hstep]

end Again

theorem crisp_program {t : Tree} {code : Block} {endMarker : Leaf} (h : t.IsProgram code endMarker)
    (hheaders : code.Headers Worded) (keep : LineSet) (wholeStatements : Bool) :
    Crisp (blockTokens keep (sealedFirst keep wholeStatements code) ++ [endMarker]) := by
  refine (coarsens_program h hheaders keep wholeStatements).crisp (crisp_of_fresh ?_)
  rw [List.forall_mem_append, List.forall_mem_singleton, h.kind]
  exact ⟨h.fresh, by decide⟩

end Collapse

open Collapse Grammar

/-- If every header has a text, and one that does not end in a line break, collapsing once more for
the same ranges, with or without the statement pass, changes nothing: no statement goes and every
leaf keeps its text, its line and its place. It succeeds unless a header left its suite together
with its `async`. Then it ends with an error at the first such suite. -/
theorem Tree.collapseUnchanged_fixpoint {t : Tree} {code : Block} {endMarker : Leaf}
    (h : t.IsProgram code endMarker) (hheaders : code.Headers Worded) (hbodied : code.Bodied)
    (ranges : List LineRange) (first second : Bool) :
    ∃ u summary v shape, t.collapseUnchanged ranges first = ⟨u, .ok summary⟩ ∧
      u.Bears shape ∧ v.Bears shape ∧ v.source = u.source ∧
      ((∃ lines, u.collapseUnchanged ranges second = ⟨v, .ok ⟨0, lines⟩⟩) ∧
          (∀ n ∈ newlines u, ¬u.Headless n) ∨
        ∃ n before after,
          u.collapseUnchanged ranges second = ⟨v, .error (.emptyGroup n .suite)⟩ ∧
            newlines u = before ++ n :: after ∧ (∀ m ∈ before, ¬u.Headless m) ∧ u.Headless n ∧
              ∃ x ∈ code.tokens, x.kind = .async) := by
  obtain ⟨u, summary, root, others, hok, hu⟩ := collapseUnchanged_settles h hbodied ranges first
  obtain ⟨u', summary', hok', htokens⟩ := collapseUnchanged_program h ranges first
  obtain rfl : u = u' := (Outcome.mk.inj (hok.symm.trans hok')).1
  rw [hu.holds.tokens_root hu.root_id] at htokens
  have hcrisp : Crisp root.shape.tokens := htokens ▸ crisp_program h hheaders _ first
  have hnewlines : newlines u = newlineIds root.leaves := newlines_eq hu.holds hu.root_id
  have hlisted : ∀ n ∈ newlines u, n ∈ newlineIds root.leaves := fun n hn => hnewlines ▸ hn
  obtain ⟨v, root', others', hv, hrun⟩ :=
    hu.sweep_again hcrisp ⟨hu.holds, hu.root_id, rfl, rfl⟩ hlisted 0
  have hpass : (if second then statementPass (.ofRanges ranges) u else ⟨u, .ok 0⟩) =
      (⟨u, .ok 0⟩ : Outcome Nat) := by
    split
    · exact hu.statementPass_idle
    · rfl
  refine ⟨u, summary, v, root.shape, hok, ⟨root, others, hu.root_id, rfl, hu.holds⟩,
    ⟨root', others', hv.root_id, hv.shape, hv.holds⟩, ?_, ?_⟩
  · rw [source, source, text, text, hv.holds.tokens_root hv.root_id, hv.shape,
      hu.holds.tokens_root hu.root_id]
  · rw [collapseUnchanged, hpass]
    rcases hrun with ⟨⟨lines, hlines⟩, hall⟩ | ⟨n, before, after, herror, hids, hrest⟩
    · refine .inl ⟨⟨lines, ?_⟩, hall⟩
      simp only [linePass, hlines]
    · refine .inr ⟨n, before, after, ?_, hids, hrest⟩
      simp only [linePass, herror]

def oneBranch : Block :=
  .cons (.compound [] none .ifStmt (.suite
    ([⟨.keyword, "", "if", 1⟩, ⟨.name, " ", "x", 1⟩, ⟨.op, "", ":", 1⟩].map .leaf)
    ⟨.newline, "", "\n", 1⟩ ⟨.indent, "", "", 2⟩
    (.cons (.line (.simple ([⟨.name, "  ", "a", 2⟩].map .leaf) ⟨.newline, "", "\n", 2⟩)) .nil)
    ⟨.dedent, "", "", 2⟩)) .nil

/-- The header is verbatim after the first collapse, and the second one succeeds. -/
theorem oneBranch_fixpoint :
    ∃ u summary v shape lines,
      (Tree.ofProgram oneBranch ⟨.endMarker, "", "", 3⟩).collapseUnchanged [⟨2, 2⟩] true =
          ⟨u, .ok summary⟩ ∧
        u.Bears shape ∧ v.Bears shape ∧
          u.collapseUnchanged [⟨2, 2⟩] true = ⟨v, .ok ⟨0, lines⟩⟩ := by
  have hwf : oneBranch.Wf :=
    ⟨⟨by simp, by simp, by simp [blockForms], isHeader_leaves (by simp) (by decide), rfl, rfl,
      ⟨⟨isHeader_leaves (by simp) (by decide), rfl⟩, trivial⟩, rfl⟩, trivial⟩
  have hprogram : (Tree.ofProgram oneBranch ⟨.endMarker, "", "", 3⟩).IsProgram oneBranch
      ⟨.endMarker, "", "", 3⟩ := by
    refine Tree.ofProgram_isProgram hwf rfl (by decide +kernel) ?_
    unfold Leaf.LinesAscend
    decide +kernel
  have hheaders : oneBranch.Headers Worded :=
    ⟨⟨⟨by decide +kernel, by decide +kernel⟩, trivial, trivial⟩, trivial⟩
  have hbodied : oneBranch.Bodied := ⟨⟨nofun, trivial, trivial⟩, trivial⟩
  obtain ⟨u, summary, v, shape, hok, hu, hv, -, hrun⟩ :=
    Tree.collapseUnchanged_fixpoint hprogram hheaders hbodied [⟨2, 2⟩] true true
  rcases hrun with ⟨⟨lines, hlines⟩, -⟩ | ⟨n, before, after, -, -, -, -, x, hx, hkind⟩
  · exact ⟨u, summary, v, shape, lines, hok, hu, hv, hlines⟩
  · have hnone : ∀ x ∈ oneBranch.tokens, x.kind ≠ .async := by decide +kernel
    exact absurd hkind (hnone x hx)

/-- A header without a text behind a body that ends in two line breaks. -/
def doubleBreak : Block :=
  .cons (.compound [] none .tryStmt (.inlineThen
      ([⟨.keyword, "", "try", 1⟩, ⟨.op, "", ":", 1⟩].map .leaf)
      [.simple ([⟨.name, " ", "a\n", 1⟩].map .leaf) ⟨.newline, "", "\n", 2⟩]
      (.suite ([⟨.op, "", "", 3⟩].map .leaf) ⟨.newline, "", "\n", 3⟩ ⟨.indent, "", "", 4⟩
        (.cons (.line (.simple ([⟨.name, "  ", "b", 4⟩].map .leaf) ⟨.newline, "", "\n", 4⟩)) .nil)
        ⟨.dedent, "", "", 4⟩))) .nil

/-- Each collapse takes one of the line breaks in front of a header without a text. -/
theorem Tree.collapseUnchanged_loses_breaks :
    let t := Tree.ofProgram doubleBreak ⟨.endMarker, "", "", 5⟩
    t.IsProgram doubleBreak ⟨.endMarker, "", "", 5⟩ ∧ doubleBreak.Bodied ∧
      (doubleBreak.Headers fun header => ¬Text.Breaks (Leaf.render (Shape.tokensOfAll header))) ∧
      (∀ x ∈ doubleBreak.tokens, x.Regular ∧ ¬x.IsEmptyNewline) ∧
      Leaf.Numbered (doubleBreak.tokens ++ [⟨.endMarker, "", "", 5⟩]) ∧
      ∀ first second,
        let u := t.collapseUnchanged [⟨4, 4⟩] first
        let v := u.tree.collapseUnchanged [⟨4, 4⟩] second
        u.result.isOk = true ∧ v.result.isOk = true ∧
          u.tree.source = "try: a\n\n  b\n" ∧ v.tree.source = "try: a\n  b\n" := by
  have hwf : doubleBreak.Wf :=
    ⟨⟨by simp, by simp, by simp [blockForms],
      ⟨isHeader_leaves (by simp) (by decide), by simp,
        List.forall_mem_singleton.mpr ⟨isHeader_leaves (by simp) (by decide), rfl⟩⟩,
      isHeader_leaves (by simp) (by decide), rfl, rfl,
      ⟨⟨isHeader_leaves (by simp) (by decide), rfl⟩, trivial⟩, rfl⟩, trivial⟩
  refine ⟨Tree.ofProgram_isProgram hwf rfl (by decide +kernel) ?_, ?_, ?_, ?_, by decide +kernel,
    by decide +kernel⟩
  · unfold Leaf.LinesAscend
    decide +kernel
  · exact ⟨⟨nofun, trivial, trivial⟩, trivial⟩
  · exact ⟨⟨by decide +kernel, by decide +kernel, trivial, trivial⟩, trivial⟩
  · unfold Leaf.Regular
    decide +kernel

end LineScope
