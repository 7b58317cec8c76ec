import LineScope.Proofs.Collapse.Furnishing
import LineScope.Proofs.Collapse.Visiting

/-!
# The line pass deals with every newline

The three kinds of visits: at the end of a statement or of a decorator, behind the header of a match,
and at the start of a suite. An `async` goes with the first header behind it only: at a later one the
first has kept lines, so the later one has them too.
-/
namespace LineScope

namespace Collapse

open LineScope.Tree Grammar

section Regions

variable {p : NodeId → Prop} {f : Frame} {above : Context} {n : NodeId} {token : Leaf}

/-- What the newline of a simple statement or of a decorator closes is a block. -/
theorem closedRegion_block (h : ∀ b ∈ Context.fill (f :: above) [.leaf n token], b.Sound p)
    (hform : f.symbol = .simpleStmt ∨ f.symbol = .decorator) (hafter : f.after = []) :
    (closedRegion (f :: above) (.leaf n token)).2.shape.role.isBlock = true ∧
      2 ≤ (closedRegion (f :: above) (.leaf n token)).2.leaves.length := by
  obtain ⟨-, -, -, -, -, hleaves⟩ := exists_line (Context.sound_frame h) hform
  have hblock : f.symbol.role.isBlock = true := by
    rcases hform with hform | hform <;> rw [hform] <;> rfl
  rw [hafter, List.append_nil] at hleaves
  have hline : ∀ b ∈ above.fill [.node f.id f.symbol (f.before ++ [.leaf n token])], b.Sound p := by
    simpa [Context.fill, hafter] using h
  obtain ⟨htop, hle⟩ := closing_block hline hblock
  have hplace := fill_closing above (.node f.id f.symbol (f.before ++ [.leaf n token]))
  rw [closedRegion, closing_of_nil _ hafter]
  generalize closing above _ = place at *
  obtain ⟨_ | ⟨g, above⟩, top⟩ := place
  · exact ⟨htop, hleaves.trans hle⟩
  · rw [widen]
    split
    · rw [← hplace] at hline
      obtain ⟨hblock, hmore⟩ := block_around hline htop
      exact ⟨hblock, (hleaves.trans hle).trans hmore⟩
    · exact ⟨htop, hleaves.trans hle⟩

end Regions

section Steps

variable {keep : LineSet} {led : Prop} {m : NodeId} {rest : List NodeId} {t : Tree} {root : Branch}
  {others : List Branch} {f g s : Frame} {above : Context} {token : Leaf}

theorem rooted_of_fill (hid : root.id = rootId) {x : Branch}
    (hplace : Context.fill (f :: above) [x] = [root]) : Context.Rooted (f :: above) := by
  have hlast := Context.getLast?_of_fill hplace
  rw [List.map_cons, List.getLast?_cons_cons, ← List.map_cons, List.getLast?_map, hid] at hlast
  exact hlast

theorem sameLabels_logicalLine {o : Outcome Bool} (hstep : logicalLine keep t m = o) :
    SameLabels t o.tree :=
  hstep ▸ (lasting_sameLabels t).logicalLine (.refl t) m

theorem Underway.later (h : Underway keep led (m :: rest) t root others) {before after : List NodeId}
    (hids : newlineIds root.leaves = before ++ m :: after) : ∀ n ∈ after, n ∈ rest :=
  ((hids ▸ h.queued).split (List.nodup_cons.mp h.nodup).1).2

theorem newlineIds_leaf_of_ne (h : token.kind ≠ .newline) :
    newlineIds (Branch.leavesOfAll [.leaf m token]) = [] := newlineIds_cons_of_ne h []

theorem newlineIds_place {c : Context} (hplace : c.fill [.leaf m token] = [root])
    (hkind : token.kind = .newline) :
    newlineIds root.leaves = newlineIds c.left ++ m :: newlineIds c.right := by
  have hself : newlineIds (Branch.leavesOfAll [.leaf m token]) = [m] := newlineIds_cons hkind []
  rw [Context.leaves_of_fill hplace, newlineIds_append, newlineIds_append, hself, List.append_assoc,
    List.singleton_append]

theorem Underway.block (h : Underway keep led (m :: rest) t root others) {e : Frame} {up : Context}
    {y : Branch} (hplace : Context.fill (e :: up) [y] = [root]) (hblock : y.shape.role.isBlock = true)
    (hlength : 2 ≤ y.leaves.length) (hclear : clear keep y.shape.tokens = true) (hmem : m ∈ y.ids)
    (hright : ∀ n ∈ newlineIds (Context.right (e :: up)), n ∈ rest)
    (hstep : logicalLine keep t m = collapseNode t y.id) :
    Advances keep led rest (logicalLine keep t m) := by
  have hlater {n : NodeId} (hn : n ∈ rest) : n ∈ m :: rest := List.mem_cons_of_mem m hn
  have hsound : ∀ b ∈ Context.fill (e :: up) [y], b.Sound (· ∈ rest) := fun b hb =>
    (h.fill_sound hplace b hb).mono fun n hn => hlater hn
  have hkempt : ∀ b ∈ Context.fill (e :: up) [y], b.Kempt (· ∈ rest) := fun b hb =>
    (h.fill_kempt hplace b hb).mono fun n hn => hlater hn
  have hfull := (Context.sound_of_fill hsound y (List.mem_singleton_self y)).full
  obtain ⟨hopen, hhead⟩ := (Context.sound_frame hsound).open_of_block hblock
  match hleaves : y.leaves, hlength with
  | (first, leaf) :: z :: more, _ =>
    obtain ⟨u, hok, -, hu, -⟩ :=
      collapseNode_place (h.fill_holds hplace) hfull hleaves (List.cons_ne_nil z more)
    rw [hok] at hstep
    rw [hstep]
    have htokens : (Branch.leavesOfAll [y]).map Prod.snd = leaf :: (z :: more).map Prod.snd := by
      simp [Branch.leavesOfAll, hleaves]
    rw [Branch.tokens_shape, hleaves] at hclear
    refine h.fold hplace hu (sameLabels_logicalLine hstep) (.siblings _ htokens hclear) ?_ ?_
      (List.cons_ne_nil _ _) (List.cons_ne_nil _ _) (fun n hn => ?_) (.inl fun hm => ?_)
    · exact Context.sound_fold hsound hopen hhead rfl
    · refine Context.kempt_fold hkempt (fun hs => ?_) rfl fun b hb n hn hmem => ?_
      · exact List.ne_nil_of_length_pos (by have := hhead hs; omega)
      · have hheaded := (Context.kempt_frame hkempt).furnished.headed
        rw [List.isChain_append] at hheaded
        have hrole := hheaded.2.2 y (by simp) b hb n hn hmem
        rw [hrole] at hblock
        cases hblock
    · rw [newlineIds_append, newlineIds_leaf_of_ne (by simp [verbatim]), List.nil_append] at hn
      exact hlater (hright n hn)
    · have hnodup := hu.nodup
      rw [Branch.idsOfAll_append, List.nodup_append] at hnodup
      refine hnodup.2.2 m hm m ?_ rfl
      rw [Branch.idsOfAll, Branch.bare_ids]
      exact List.mem_append_left _ hmem

theorem Underway.line (h : Underway keep led (m :: rest) t root others)
    (hplace : Context.fill (f :: above) [.leaf m token] = [root]) (hkind : token.kind = .newline)
    (hform : f.symbol = .simpleStmt ∨ f.symbol = .decorator) (hafter : f.after = []) :
    Advances keep led rest (logicalLine keep t m) := by
  have hsound := h.fill_sound hplace
  have hrooted := rooted_of_fill h.root_id hplace
  have hstep := @logicalLine_line keep t _ _ _ (h.fill_holds hplace) hrooted ⟨f, rfl, hform⟩
    fun b hb => (hsound b hb).full
  have hvisited (hregion : (closedRegion (f :: above) (.leaf m token)).1 = [] ∨
      clear keep (closedRegion (f :: above) (.leaf m token)).2.shape.tokens = false) :
      Visited keep led m [root] :=
    .inr ⟨_, token, hplace, .inl ⟨⟨f, rfl, hform⟩, hregion⟩⟩
  obtain ⟨hblock, hlength⟩ := closedRegion_block hsound hform hafter
  obtain ⟨inner, hc, hinner⟩ := exists_closedRegion (f :: above) (.leaf m token)
  have hfill := fill_closedRegion (f :: above) (.leaf m token)
  generalize closedRegion (f :: above) (.leaf m token) = place at *
  obtain ⟨d, y⟩ := place
  rw [hplace] at hfill
  rw [Branch.id] at hstep
  split at hstep
  · next hclear =>
    cases d with
    | nil =>
      rw [hstep, collapseNode_top (h.fill_holds hfill)]
      exact h.stay (hvisited (.inl rfl))
    | cons e up =>
      refine h.block hfill hblock hlength hclear ?_ (fun n hn => ?_) hstep
      · have hmem := Context.mem_leaves_of_fill hinner (List.mem_singleton_self (m, token))
        exact y.leaves_map_fst_sublist.subset (List.mem_map_of_mem hmem)
      · refine h.later (newlineIds_place hplace hkind) n ?_
        rw [hc, Context.right_append, newlineIds_append]
        exact List.mem_append_right _ hn
  · next hclear =>
    rw [hstep]
    exact h.stay (hvisited (.inr (Bool.eq_false_iff.mpr hclear)))

theorem Underway.header (h : Underway keep led (m :: rest) t root others) {header : List Branch}
    (hroot : Context.fill (f :: above) header = [root])
    (hstep : logicalLine keep t m = collapseHeader keep t (.ok (header.map Branch.id)))
    (hne : header ≠ []) (hline : f.symbol.isLine = false) (hnosuite : f.symbol ≠ .suite)
    (hright : ∃ post, newlineIds (Context.right (f :: above)) = m :: post)
    (hnext : ∀ b ∈ f.after.head?, ∀ n, b.opener? = some n → n = m)
    (hvisited : ∀ run, Kept keep run → (run = header ∨ ∃ n leaf, run = [.leaf n leaf]) →
      Visited keep led m (Context.fill (f :: above) run)) :
    Advances keep led rest (logicalLine keep t m) := by
  have hholds := h.fill_holds hroot
  have hlater {n : NodeId} (hn : n ∈ rest) : n ∈ m :: rest := List.mem_cons_of_mem m hn
  have hsound : ∀ b ∈ Context.fill (f :: above) header, b.Sound (· ∈ rest) := fun b hb =>
    (h.fill_sound hroot b hb).mono fun n hn => hlater hn
  have hkempt : ∀ b ∈ Context.fill (f :: above) header, b.Kempt (· ∈ rest) := fun b hb =>
    (h.fill_kempt hroot b hb).mono fun n hn => hlater hn
  have hfull : ∀ b ∈ header, b.shape.Full := fun b hb => (Context.sound_of_fill hsound b hb).full
  rw [collapseHeader, misses_eq_clear keep (fun b hb => ⟨_, hholds.run_grows b hb⟩) hholds.run_nodup
    hfull] at hstep
  split at hstep
  · next hclear =>
    obtain ⟨head, more, rfl⟩ := List.exists_cons_of_ne_nil hne
    have hhead := hfull head List.mem_cons_self
    obtain ⟨x, xs, hx⟩ := List.exists_cons_of_ne_nil (Branch.leaves_ne_nil_of_full hhead)
    have htokens : (Branch.leavesOfAll (head :: more)).map Prod.snd =
        x.2 :: (xs ++ Branch.leavesOfAll more).map Prod.snd := by
      simp [Branch.leavesOfAll, hx]
    obtain ⟨u, hok, -, hu, -⟩ := collapseRun_siblings hholds hhead htokens
    rw [hok] at hstep
    rw [hstep]
    rw [htokens] at hclear
    refine h.fold hroot hu (sameLabels_logicalLine hstep) (.siblings _ htokens hclear) ?_ ?_ hne
      (List.cons_ne_nil _ _) (fun n hn => ?_) (hvisited _ (.inr ⟨_, _, rfl, rfl⟩) (.inr ⟨_, _, rfl⟩))
    · exact Context.sound_fold hsound hline (fun hs => absurd hs hnosuite) rfl
    · refine Context.kempt_fold hkempt (fun hs => absurd hs hnosuite) rfl fun b hb n hn hmem => ?_
      rw [hnext b hb n hn] at hmem
      exact (List.nodup_cons.mp h.nodup).1 hmem
    · obtain ⟨post, hpost⟩ := hright
      have hids := congrArg newlineIds (Context.leaves_of_fill hroot)
      rw [newlineIds_append, hpost] at hids
      have hmem : n ∈ newlineIds (Context.right (f :: above)) := by
        rwa [newlineIds_append, newlineIds_leaf_of_ne (by simp [verbatim]), List.nil_append] at hn
      rw [hpost] at hmem
      rcases List.mem_cons.mp hmem with rfl | hmem
      · exact List.mem_cons_self
      · exact hlater (h.later hids n hmem)
  · next hclear =>
    rw [hstep]
    exact h.stay (hroot ▸ hvisited header (.inl (Bool.eq_false_iff.mpr hclear)) (.inl rfl))

theorem Underway.choice (h : Underway keep led (m :: rest) t root others)
    (hplace : Context.fill (f :: above) [.leaf m token] = [root]) (hkind : token.kind = .newline)
    (hform : f.symbol = .matchStmt) (hbefore : f.before ≠ []) :
    Advances keep led rest (logicalLine keep t m) := by
  have hrooted := rooted_of_fill h.root_id hplace
  have hstep := @logicalLine_match keep t _ _ _ _ (h.fill_holds hplace) hform hrooted hbefore
  rw [Branch.id] at hstep
  have hfill (run : List Branch) :
      Context.fill (⟨f.id, f.symbol, [], .leaf m token :: f.after⟩ :: above) run =
        Context.fill (⟨f.id, f.symbol, run, f.after⟩ :: above) [.leaf m token] := by
    simp [Context.fill]
  have hopen : f.symbol.isLine = false ∧ f.symbol ≠ .suite := by
    rw [hform]
    decide
  refine h.header ((hfill f.before).trans hplace) hstep hbefore hopen.1 hopen.2
    ⟨_, newlineIds_cons hkind _⟩ (fun b hb n hn => ?_) fun run hkept hrun => ?_
  · obtain rfl := Option.some.inj hb
    cases hn
  · refine .inr ⟨_, token, (hfill run).symm, .inr (.choice hform ?_ hkept)⟩
    rcases hrun with rfl | ⟨n, leaf, rfl⟩
    · exact hbefore
    · exact List.cons_ne_nil _ _

theorem opened_suite (hs : s.symbol = .suite) (hopens : s.before = []) (m : NodeId) (token : Leaf) :
    (Branch.node s.id s.symbol (s.before ++ [.leaf m token] ++ s.after)).opener? = some m ∧
      (Branch.node s.id s.symbol (s.before ++ [.leaf m token] ++ s.after)).shape.role = .suite ∧
      (Branch.node s.id s.symbol (s.before ++ [.leaf m token] ++ s.after)).leaves =
        (m, token) :: Branch.leavesOfAll s.after := by
  rw [hs, hopens]
  exact ⟨rfl, rfl, rfl⟩

/-- In front of the suite that is visited stands a header, which ends with an ordinary token. -/
theorem Underway.exists_header (h : Underway keep led (m :: rest) t root others)
    (hplace : Context.fill (s :: g :: above) [.leaf m token] = [root]) (hs : s.symbol = .suite)
    (hopens : s.before = []) :
    ∃ done header, HeaderOf g.before done header ∧ header ≠ [] ∧
      ∀ y ∈ (Branch.tokensOfAll header).getLast?, y.kind ≠ .verbatim := by
  have hfill : Context.fill (g :: above)
      [.node s.id s.symbol (s.before ++ [.leaf m token] ++ s.after)] = [root] := hplace
  obtain ⟨hopener, -, -⟩ := opened_suite hs hopens m token
  generalize Branch.node s.id s.symbol (s.before ++ [.leaf m token] ++ s.after) = suite at *
  have hframe := Context.sound_frame (h.fill_sound hfill)
  have hheaded := (Context.kempt_frame (h.fill_kempt hfill)).furnished.headed
  have hled := hframe.arranged.led
  rw [List.append_assoc] at hled
  obtain ⟨pre, b, hbefore, -⟩ := hled.exists_header hopener List.mem_cons_self
  have hlast : g.before.getLast? = some b := by rw [hbefore, List.getLast?_concat]
  rw [List.isChain_append, List.isChain_append] at hheaded
  have hrole := hheaded.1.2.2 b hlast suite rfl m hopener List.mem_cons_self
  obtain ⟨done, header, hheader⟩ := exists_headerOf g.before
  have hb : header.getLast? = some b := by
    refine hheader.getLast? hlast ?_
    cases b with
    | leaf id token => rfl
    | node id symbol parts => cases symbol <;> first | rfl | cases hrole
  obtain ⟨init, rfl⟩ := List.getLast?_eq_some_iff.mp hb
  refine ⟨done, init ++ [b], hheader, by simp, fun y hy => ?_⟩
  have hsound : b.Sound (· ∈ m :: rest) := hframe.part (by simp [hbefore])
  have hne := Shape.tokens_ne_nil_of_full hsound.full
  rw [Branch.tokensOfAll_append, Branch.tokensOfAll_singleton, List.getLast?_append_of_ne_nil _ hne,
    Branch.tokens_shape] at hy
  obtain ⟨x, hx, rfl⟩ := List.mem_map.mp (List.mem_of_getLast? hy)
  have hordinary := hsound.isOrdinary hrole x hx
  intro hkind
  rw [hkind] at hordinary
  cases hordinary

theorem exists_opener {p : NodeId → Prop} {b : Branch} (h : b.Sound p) (hsuite : b.isSuite = true) :
    ∃ (i n : NodeId) (newline : Leaf) (parts : List Branch),
      b = .node i .suite (.leaf n newline :: parts) ∧ newline.kind = .newline := by
  cases b with
  | leaf id token => cases hsuite
  | node i symbol parts =>
    obtain rfl : symbol = .suite := by simpa [Branch.isSuite] using hsuite
    obtain ⟨body, -, hroles⟩ := h.arranged.laid
    obtain ⟨first, parts, rfl, hfirst, -⟩ := List.map_eq_cons_iff.mp hroles
    obtain ⟨n, newline, rfl, hnewline⟩ := first.eq_leaf_of_newline hfirst
    exact ⟨i, n, newline, parts, rfl, hnewline⟩

/-- Of two headers behind one `async`, the second has a kept line if the first has one. -/
theorem clear_eq_false_of_lead {lead : Leaf} {first second : List Leaf}
    (h : Rising (lead :: first ++ second)) (hlead : lead.kind ≠ .verbatim)
    (hlast : ∀ y ∈ first.getLast?, y.kind ≠ .verbatim) (hne : second ≠ [])
    (hkept : clear keep (lead :: first) = false) : clear keep (lead :: second) = false := by
  have hfinal := List.getLast?_eq_some_getLast hne
  have hall : (lead :: first ++ second).getLast? = some (second.getLast hne) := by
    rw [List.getLast?_append_of_ne_nil _ hne, hfinal]
  have hend : (lead :: second).getLast? = some (second.getLast hne) := by
    rw [List.getLast?_cons_of_ne_nil hne, hfinal]
  refine clear_eq_false_of_le hkept List.head?_cons hend
    (fun x hx => Option.some.inj hx ▸ Nat.le_refl _) fun x hx => ?_
  refine h.endLine_le hall (List.mem_append_left _ (List.mem_of_getLast? hx)) ?_
  rw [List.getLast?_cons] at hx
  cases hfirst : first.getLast? with
  | some y =>
    obtain rfl : y = x := by simpa [hfirst] using hx
    exact hlast y hfirst
  | none =>
    obtain rfl : lead = x := by simpa [hfirst] using hx
    exact hlead

/-- Two headers of a block and the `async` in front of it stand one after the other. -/
theorem Underway.rising_led (h : Underway keep led rest t root others) {e : Frame} {up : Context}
    {pre done first between second : List Branch} {key : NodeId} {lead : Leaf}
    (hplace : Context.fill (s :: g :: e :: up) [.leaf m token] = [root])
    (hbefore : e.before = pre ++ [.leaf key lead])
    (hsplit : g.before = done ++ first ++ between ++ second) :
    Rising (lead :: Branch.tokensOfAll first ++ Branch.tokensOfAll second) := by
  refine h.rising.sublist ?_
  rw [Context.leaves_of_fill hplace]
  simp only [Context.left, hsplit, hbefore, Branch.leavesOfAll_append, List.map_append,
    List.append_assoc]
  refine List.Sublist.trans ?_ (List.sublist_append_right _ _)
  refine List.Sublist.trans ?_ (List.sublist_append_right _ _)
  refine @List.Sublist.append _ [lead] [lead] _ _ (List.Sublist.refl _) ?_
  refine List.Sublist.trans ?_ (List.sublist_append_right _ _)
  refine List.Sublist.append (List.Sublist.refl _) ?_
  refine List.Sublist.trans ?_ (List.sublist_append_right _ _)
  exact List.sublist_append_left _ _

/-- An `async` that goes with a header stands in front of the first header of its block: behind a
suite there would be a header before it that is clear together with the `async`. -/
theorem Underway.done_eq_nil (h : Underway keep led (m :: rest) t root others) {e : Frame}
    {up : Context} {pre done header : List Branch} {key : NodeId} {lead : Leaf}
    (hplace : Context.fill (s :: g :: e :: up) [.leaf m token] = [root])
    (hkind : token.kind = .newline) (hbefore : e.before = pre ++ [.leaf key lead])
    (hasync : lead.kind = .async) (hheader : HeaderOf g.before done header)
    (hne : Branch.tokensOfAll header ≠ [])
    (hclear : clear keep (lead :: Branch.tokensOfAll header) = true) : done = [] := by
  rcases List.eq_nil_or_concat done with rfl | ⟨done, last, rfl⟩
  · rfl
  exfalso
  rw [List.concat_eq_append] at hheader
  have hsplit := hheader.split
  have hlead : leadIn (e :: up) = [.leaf key lead] := leadIn_async hbefore hasync
  have howner : Context.fill (g :: e :: up)
      [.node s.id s.symbol (s.before ++ [.leaf m token] ++ s.after)] = [root] := hplace
  obtain ⟨i, n, newline, parts, rfl, hnewline⟩ := exists_opener
    ((Context.sound_frame (h.fill_sound howner)).part (b := last) (by simp [hsplit]))
    (hheader.done_last last (by simp))
  have hplace' : Context.fill (⟨i, .suite, [], parts⟩ :: ⟨g.id, g.symbol, done, header ++
      [.node s.id s.symbol (s.before ++ [.leaf m token] ++ s.after)] ++ g.after⟩ :: e :: up)
      [.leaf n newline] = [root] := by
    rw [← hplace]
    simp [Context.fill, hsplit]
  have hgone : n ∉ m :: rest := by
    have hids := newlineIds_place hplace hkind
    refine ((hids ▸ h.queued).split (List.nodup_cons.mp h.nodup).1).1 n ?_
    refine List.mem_map.mpr ⟨(n, newline), List.mem_filter.mpr ⟨?_, by simpa using hnewline⟩, rfl⟩
    simp [Context.left, hsplit, Branch.leavesOfAll, Branch.leaves]
  rcases h.settled _ n newline hplace' hnewline hgone with ⟨⟨f, hf, hform⟩, -⟩ | hsettled
  · obtain rfl := Option.some.inj hf
    rcases hform with hform | hform <;> cases hform
  cases hsettled with
  | choice form header kept => cases form
  | bare form opens done_last lead' behind => simp [hlead] at lead'
  | @suite _ _ _ done' header' form opens header_of nonempty kept last =>
    rw [hlead] at kept last
    rcases kept with kept | ⟨n, leaf, hrun, -⟩
    · have hsplit' : done = done' ++ header' := header_of.split
      have hrising := h.rising_led hplace hbefore (hsplit.trans (by rw [hsplit']))
      have hlast := last.resolve_right (by
        rintro ⟨_, _, hrun⟩
        exact nonempty (List.cons.inj hrun).2)
      have hkept := clear_eq_false_of_lead hrising (by simp [hasync]) hlast hne kept
      rw [hkept] at hclear
      exact Bool.noConfusion hclear
    · exact nonempty (List.cons.inj hrun).2

/-- The newline at the start of a suite whose statement has no `async`. -/
theorem Underway.suite_free (h : Underway keep led (m :: rest) t root others)
    {done header : List Branch} (hplace : Context.fill (s :: g :: above) [.leaf m token] = [root])
    (hkind : token.kind = .newline) (hs : s.symbol = .suite) (hopens : s.before = [])
    (hheader : HeaderOf g.before done header) (hne : header ≠ []) (hlead : leadIn above = [])
    (hlast : ∀ y ∈ (Branch.tokensOfAll header).getLast?, y.kind ≠ .verbatim)
    (hstep : logicalLine keep t m = collapseHeader keep t (.ok (header.map Branch.id)))
    (hopen : g.symbol.isLine = false ∧ g.symbol ≠ .suite) :
    Advances keep led rest (logicalLine keep t m) := by
  have hfill (run : List Branch) : Context.fill (⟨g.id, g.symbol, done,
      .node s.id s.symbol (s.before ++ [.leaf m token] ++ s.after) :: g.after⟩ :: above) run =
        Context.fill (s :: ⟨g.id, g.symbol, done ++ run, g.after⟩ :: above) [.leaf m token] := by
    simp [Context.fill]
  have hroot : Context.fill (⟨g.id, g.symbol, done,
      .node s.id s.symbol (s.before ++ [.leaf m token] ++ s.after) :: g.after⟩ :: above) header =
        [root] := by
    rw [hfill, ← hheader.split]
    exact hplace
  refine h.header hroot hstep hne hopen.1 hopen.2 ?_ (fun b hb n hn => ?_) fun run hkept hrun => ?_
  · refine ⟨newlineIds (Branch.leavesOfAll s.after ++ (Branch.leavesOfAll g.after ++
      Context.right above)), ?_⟩
    rw [← newlineIds_cons hkind]
    simp [Context.right, Branch.leavesOfAll, Branch.leaves, hopens]
  · obtain rfl := Option.some.inj hb
    rw [hs, hopens] at hn
    exact (Option.some.inj hn).symm
  · have hrun' : run ≠ [] ∧ ∀ b ∈ run, b.isSuite = false := by
      rcases hrun with rfl | ⟨n, leaf, rfl⟩
      · exact ⟨hne, hheader.header_suite⟩
      · exact ⟨List.cons_ne_nil _ _, by simp [Branch.isSuite]⟩
    refine .inr ⟨_, token, (hfill run).symm, .inr (.suite hs hopens
      ⟨rfl, hheader.done_last, hrun'.2⟩ hrun'.1 ?_ ?_)⟩
    · rwa [hlead, List.nil_append]
    · rw [hlead, List.nil_append]
      rcases hrun with rfl | hsingle
      · exact .inl hlast
      · exact .inr hsingle

/-- A header and the `async` in front of its node are folded together. -/
theorem Underway.fold_led (h : Underway keep led (m :: rest) t root others) {e : Frame}
    {up : Context} {pre : List Branch} {key : NodeId} {lead : Leaf}
    (hplace : Context.fill (s :: g :: e :: up) [.leaf m token] = [root])
    (hkind : token.kind = .newline) (hs : s.symbol = .suite) (hopens : s.before = [])
    (hbefore : e.before = pre ++ [.leaf key lead]) (hasync : lead.kind = .async)
    (hopen : g.symbol ≠ .suite) (hclear : clear keep (lead :: Branch.tokensOfAll g.before) = true)
    (hstep : logicalLine keep t m = collapseRun t (key :: g.before.map Branch.id)) :
    Advances keep led rest (logicalLine keep t m) := by
  have hroot : Context.fill (⟨e.id, e.symbol, pre, e.after⟩ :: up) [.leaf key lead,
      .node g.id g.symbol ([] ++ g.before ++
        .node s.id s.symbol (s.before ++ [.leaf m token] ++ s.after) :: g.after)] = [root] := by
    rw [← hplace]
    simp [Context.fill, hbefore]
  obtain ⟨hopener, hsuite, hleaves⟩ := opened_suite hs hopens m token
  have hlater {n : NodeId} (hn : n ∈ rest) : n ∈ m :: rest := List.mem_cons_of_mem m hn
  generalize hnode : Branch.node s.id s.symbol (s.before ++ [.leaf m token] ++ s.after) = suite at *
  have hvisited : ∀ n, suite.opener? = some n → ¬ n ∈ rest := fun n hn => by
    obtain rfl := Option.some.inj (hopener.symm.trans hn)
    exact (List.nodup_cons.mp h.nodup).1
  have hsound := fun b hb => (h.fill_sound hroot b hb).mono fun n (hn : n ∈ rest) => hlater hn
  have hkempt := fun b hb => (h.fill_kempt hroot b hb).mono fun n (hn : n ∈ rest) => hlater hn
  obtain ⟨u, hok, -, hu, -⟩ := collapseRun_keyword (h.fill_holds hroot)
  rw [hok] at hstep
  rw [hstep]
  refine h.fold hroot hu (sameLabels_logicalLine hstep) (.keyword _ hclear) ?_ ?_
    (List.cons_ne_nil _ _) (List.cons_ne_nil _ _) (fun n hn => ?_) (.inr ?_)
  · exact Context.sound_keyword hsound hasync rfl hsuite hvisited
  · refine Context.kempt_keyword hkempt hopen (fun hs => ?_) rfl hvisited
    rintro rfl
    obtain ⟨body, -, hroles⟩ := hs ▸ (Context.sound_frame hsound).arranged.laid
    rw [List.nil_append, List.cons_append, List.map_cons, Branch.role_mark (.inr hasync)] at hroles
    cases (List.cons.inj hroles).1
  · have hall : newlineIds (Branch.leavesOfAll [.leaf t.size (verbatim lead (Leaf.render
        (lead.bare :: (Branch.leavesOfAll g.before).map Prod.snd))),
        .node g.id g.symbol ([] ++ suite :: g.after)] ++
        Context.right (⟨e.id, e.symbol, pre, e.after⟩ :: up)) =
        m :: newlineIds (Context.right (s :: g :: e :: up)) := by
      rw [Branch.leavesOfAll, Branch.leaves, List.singleton_append, List.cons_append,
        newlineIds_cons_of_ne (by simp [verbatim]), ← newlineIds_cons hkind]
      simp [Context.right, Branch.leavesOfAll, Branch.leaves, hleaves]
    rw [hall] at hn
    rcases List.mem_cons.mp hn with rfl | hn
    · exact List.mem_cons_self
    · exact hlater (h.later (newlineIds_place hplace hkind) n hn)
  · have hkey : (key, lead) ∈ root.leaves := by
      rw [Context.leaves_of_fill hroot]
      simp [Branch.leavesOfAll, Branch.leaves]
    refine ⟨s :: ⟨g.id, g.symbol, [], g.after⟩ :: ⟨e.id, e.symbol, pre ++ [.leaf t.size
      (verbatim lead (Leaf.render (lead.bare :: (Branch.leavesOfAll g.before).map Prod.snd)))],
      e.after⟩ :: up, token, ?_, .inr (.bare hs hopens (by simp) ?_ (h.asyncs _ hkey hasync))⟩
    · simp [Context.fill, ← hnode]
    · simp [leadIn, leadOf, Option.filter, Branch.isAsync, verbatim]

/-- The newline at the start of a suite whose statement stands behind an `async`. -/
theorem Underway.suite_led (h : Underway keep led (m :: rest) t root others) {e : Frame}
    {up : Context} {pre done header : List Branch} {key : NodeId} {lead : Leaf}
    (hplace : Context.fill (s :: g :: e :: up) [.leaf m token] = [root])
    (hkind : token.kind = .newline) (hs : s.symbol = .suite) (hopens : s.before = [])
    (hbefore : e.before = pre ++ [.leaf key lead]) (hasync : lead.kind = .async)
    (hheader : HeaderOf g.before done header) (hne : header ≠ [])
    (hlast : ∀ y ∈ (Branch.tokensOfAll header).getLast?, y.kind ≠ .verbatim)
    (hstep : logicalLine keep t m = collapseHeader keep t (.ok (key :: header.map Branch.id)))
    (hopen : g.symbol ≠ .suite) : Advances keep led rest (logicalLine keep t m) := by
  have hroot : Context.fill (⟨e.id, e.symbol, pre, e.after⟩ :: up) [.leaf key lead,
      .node g.id g.symbol (done ++ header ++
        .node s.id s.symbol (s.before ++ [.leaf m token] ++ s.after) :: g.after)] = [root] := by
    rw [← hplace]
    simp [Context.fill, hbefore, hheader.split]
  have howner : Context.fill (g :: e :: up)
      [.node s.id s.symbol (s.before ++ [.leaf m token] ++ s.after)] = [root] := hplace
  have hframe := Context.sound_frame (h.fill_sound howner)
  have hfull : ∀ b ∈ header, b.shape.Full := fun b hb =>
    (hframe.part (b := b) (by simp [hheader.split, hb])).full
  rw [collapseHeader, misses_keyword keep (h.fill_holds hroot) hfull] at hstep
  split at hstep
  · next hclear =>
    have htokens : Branch.tokensOfAll header ≠ [] := by
      obtain ⟨head, more, rfl⟩ := List.exists_cons_of_ne_nil hne
      rw [Branch.tokensOfAll_cons]
      exact List.append_ne_nil_of_left_ne_nil
        (Shape.tokens_ne_nil_of_full (hfull head List.mem_cons_self)) _
    obtain rfl := h.done_eq_nil hplace hkind hbefore hasync hheader htokens hclear
    obtain rfl : g.before = header := hheader.split
    exact h.fold_led hplace hkind hs hopens hbefore hasync hopen hclear hstep
  · next hclear =>
    rw [hstep]
    refine h.stay (.inr ⟨_, token, hplace, .inr (.suite hs hopens hheader hne (.inl ?_)
      (.inl hlast))⟩)
    rw [leadIn_async hbefore hasync]
    exact Bool.eq_false_iff.mpr hclear

theorem Underway.suite (h : Underway keep led (m :: rest) t root others)
    (hplace : Context.fill (s :: g :: above) [.leaf m token] = [root]) (hkind : token.kind = .newline)
    (hs : s.symbol = .suite) (hopens : s.before = []) :
    Advances keep led rest (logicalLine keep t m) := by
  obtain ⟨done, header, hheader, hne, hlast⟩ := h.exists_header hplace hs hopens
  have hrooted := rooted_of_fill h.root_id hplace
  have hstep := @logicalLine_opens keep t _ s _ others (h.fill_holds hplace) hrooted hs
  have howner : Context.fill (g :: above)
      [.node s.id s.symbol (s.before ++ [.leaf m token] ++ s.after)] = [root] := hplace
  have hsuite := suiteHeader_led (h.fill_holds howner) hheader hne m
  simp only [Branch.id] at hstep hsuite
  rw [hsuite] at hstep
  have hopen := (Context.sound_frame (h.fill_sound howner)).arranged.laid.of_suite
    (List.mem_map.mpr ⟨_,
      List.mem_append_left _ (List.mem_append_right _ (List.mem_singleton_self _)),
      (opened_suite hs hopens m token).2.1⟩)
  rcases leadIn_cases above with hnil | ⟨e, up, pre, key, lead, rfl, hbefore, hasync⟩
  · rw [hnil, List.nil_append] at hstep
    exact h.suite_free hplace hkind hs hopens hheader hne hnil hlast hstep ⟨hopen.1, hopen.2.1⟩
  · rw [leadIn_async hbefore hasync] at hstep
    exact h.suite_led hplace hkind hs hopens hbefore hasync hheader hne hlast hstep hopen.2.1

/-- A newline that is listed. -/
theorem Underway.step (h : Underway keep led (m :: rest) t root others) :
    Advances keep led rest (logicalLine keep t m) := by
  have hattached : t.isAttached m = true ↔ m ∈ root.ids :=
    h.holds.isAttached_iff List.mem_cons_self h.root_id
  by_cases hm : t.isAttached m = true
  · obtain ⟨c, x, hplace, rfl⟩ := Context.exists_fill (hattached.mp hm)
    have hholds := h.fill_holds hplace
    have hgrows := hholds.run_grows x (List.mem_singleton_self x)
    have hlabel := h.labels x.id List.mem_cons_self
    cases x with
    | node id symbol parts => simp [isToken, kind?, Branch.id, hgrows.leaf?_node] at hlabel
    | leaf id token =>
      have hkind : token.kind = .newline := by
        simpa [isToken, kind?, Branch.id, hgrows.leaf?_leaf] using hlabel
      cases c with
      | nil =>
        obtain rfl := List.singleton_inj.mp hplace
        have hroot := h.root_symbol
        rw [← h.root_id, Branch.id, hgrows.symbol?_leaf] at hroot
        cases hroot
      | cons f above =>
        have hlaid := (Context.sound_frame (h.fill_sound hplace)).arranged.laid
        have hrole : (Branch.leaf id token).shape.role = .newline := by
          rw [Branch.shape, Shape.role, hkind]
          rfl
        simp only [List.map_append, List.map_cons, hrole, List.append_assoc,
          List.singleton_append] at hlaid
        rcases hlaid.newline with ⟨hform, -, hafter⟩ | ⟨hform, hbefore⟩ | ⟨hform, hbefore⟩
        · exact h.line hplace hkind hform (List.map_eq_nil_iff.mp hafter)
        · cases above with
          | nil =>
            have hroot := h.root_symbol
            have hsymbol : t.symbol? f.id = some f.symbol := hholds.symbol?_parent
            have hid := h.root_id
            rw [Context.fill, Context.fill, List.singleton_inj] at hplace
            rw [← hplace, Branch.id] at hid
            rw [hid, hroot, hform] at hsymbol
            cases hsymbol
          | cons g above => exact h.suite hplace hkind hform (List.map_eq_nil_iff.mp hbefore)
        · exact h.choice hplace hkind hform fun hnil => hbefore (by rw [hnil]; rfl)
  · have hstep : logicalLine keep t m = ⟨t, .ok false⟩ := by
      rw [logicalLine, if_pos (by simpa using hm)]
    rw [hstep]
    refine h.stay (.inl ?_)
    rw [Branch.idsOfAll, Branch.idsOfAll, List.append_nil]
    exact fun hmem => hm (hattached.mpr hmem)

end Steps

section Run

variable {keep : LineSet} {led : Prop} {t : Tree} {root : Branch} {others : List Branch}
  {code : Block} {endMarker : Leaf}

theorem underway_start (h : t.Holds (root :: others)) (hid : root.id = rootId)
    (hshape : root.shape = fileShape code endMarker) (hkempt : root.shape.Kempt)
    (hrising : Rising root.shape.tokens) (hasyncs : ∀ x ∈ root.shape.tokens, x.kind = .async → led) :
    Underway keep led (newlines t) t root others := by
  have hgrows := h.grows root List.mem_cons_self
  have hids : newlines t = newlineIds root.leaves := newlines_eq h hid
  have hnodup : root.ids.Nodup := by
    have hall := h.nodup
    rw [Branch.idsOfAll, List.nodup_append] at hall
    exact hall.1
  refine ⟨h, hid, ?_, ?_, fun n hn => ?_, Branch.sound_of_kempt hkempt, Branch.kempt_of_shape hkempt,
    root.tokens_shape ▸ hrising, hids ▸ .refl _, fun x hx => hasyncs x.2 ?_, ?_⟩
  · cases root with
    | leaf id token => cases hshape
    | node id symbol parts =>
      rw [← hid, Branch.id, hgrows.symbol?_node]
      exact congrArg some (Shape.node.inj hshape).1
  · rw [hids]
    exact ((List.filter_sublist.map _).trans root.leaves_map_fst_sublist).nodup hnodup
  · simpa [newlines] using (List.mem_filter.mp hn).2
  · rw [root.tokens_shape]
    exact List.mem_map_of_mem hx
  · intro c n token hfill hkind hn
    refine absurd ?_ hn
    rw [hids]
    refine List.mem_map.mpr ⟨(n, token), List.mem_filter.mpr ⟨?_, by simpa using hkind⟩, rfl⟩
    exact Context.mem_leaves_of_fill hfill (List.mem_singleton_self _)

theorem Underway.linePass (h : Underway keep led (newlines t) t root others) :
    ∃ u total root' others', Collapse.linePass keep t = ⟨u, .ok total⟩ ∧
      Underway keep led [] u root' others' := by
  obtain ⟨u, total, hsweep, root', others', hu⟩ := sweep_ok (logicalLine keep)
    (fun ns t => ∃ root others, Underway keep led ns t root others) (by
      rintro t n rest ⟨root, others, h⟩
      obtain ⟨done, root', others', hok, hnext⟩ := h.step
      exact ⟨⟨done, hok⟩, root', others', hnext⟩) ⟨root, others, h⟩ 0
  exact ⟨u, total, root', others', hsweep, hu⟩

/-- Collapsing a program deals with all newlines that are left. -/
theorem collapseUnchanged_settles (h : t.IsProgram code endMarker) (hbodied : code.Bodied)
    (ranges : List LineRange) (wholeStatements : Bool) :
    ∃ u summary root others, t.collapseUnchanged ranges wholeStatements = ⟨u, .ok summary⟩ ∧
      Underway (.ofRanges ranges) (∃ x ∈ code.tokens, x.kind = .async) [] u root others := by
  set keep := LineSet.ofRanges ranges with hkeep
  obtain ⟨v, count, root, others, hpass, hv, hid, hshape⟩ := firstPass_program h keep wholeStatements
  have hcoarsens : Coarsens (fun _ => True) (code.tokens ++ [endMarker]) root.shape.tokens := by
    rw [hshape, tokens_fileShape]
    exact .append (opens_cons (by simp [h.kind])) (coarsens_sealedFirst h _ keep wholeStatements)
      (.refl _)
  have hstart : Underway keep (∃ x ∈ code.tokens, x.kind = .async) (newlines v) v root others := by
    have hrising := hcoarsens.rising (.of_ascend h.ascending)
    refine underway_start hv hid hshape ?_ hrising fun x hx hkind => ?_
    · rw [hshape]
      exact kempt_fileShape (sealedFirst_wf h.wf _ _) (sealedFirst_bodied hbodied _ _) h.kind
    · rcases hcoarsens.kept x hx with hverbatim | hmem
      · rw [hkind] at hverbatim
        cases hverbatim
      · rcases List.mem_append.mp hmem with hmem | hmem
        · exact ⟨x, hmem, hkind⟩
        · rw [List.mem_singleton.mp hmem, h.kind] at hkind
          cases hkind
  obtain ⟨u, lines, root', others', hlines, hu⟩ := hstart.linePass
  refine ⟨u, ⟨count, lines⟩, root', others', ?_, hu⟩
  rw [Tree.collapseUnchanged, ← hkeep, hpass]
  simp only [hlines]

end Run

end Collapse

end LineScope
