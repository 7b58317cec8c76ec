import LineScope.Proofs.Collapse.Layout
import LineScope.Proofs.Collapse.Preservation

/-!
# Sound trees collapse without error

Each step of either pass succeeds on a store of sound branches and leaves one behind. A step may find
its node in a branch that an earlier one detached; such branches stay sound too, so it is never told
apart. In the second pass a newline is no longer pending once it has been visited.
-/
namespace LineScope

namespace Branch

theorem eq_leaf_of_newline {b : Branch} (h : b.shape.role = .newline) :
    ∃ n token, b = .leaf n token ∧ token.kind = .newline := by
  cases b with
  | leaf n token =>
    refine ⟨n, token, rfl, ?_⟩
    rw [shape, Shape.role] at h
    cases hkind : token.kind <;> rw [hkind] at h <;> first | rfl | cases h
  | node id symbol parts =>
    rw [shape, Shape.role] at h
    cases symbol <;> cases h

/-- A block stands neither within a logical line nor at the head of a suite. -/
theorem Sound.open_of_block {p : NodeId → Prop} {id : NodeId} {symbol : Symbol}
    {before after : List Branch} {x : Branch} (h : Sound p (.node id symbol (before ++ [x] ++ after)))
    (hblock : x.shape.role.isBlock = true) :
    symbol.isLine = false ∧ (symbol = .suite → 2 ≤ before.length) := by
  have hlaid := h.arranged.laid
  simp only [List.map_append, List.map_cons, List.append_assoc, List.singleton_append] at hlaid
  refine ⟨h.isLine (by simp) hblock, ?_⟩
  rintro rfl
  cases hrole : x.shape.role with
  | form =>
    rw [hrole] at hlaid
    simpa using hlaid.two_le_of_form
  | suite => exact absurd rfl (hlaid.of_suite (by simp [hrole])).2.1
  | _ => rw [hrole] at hblock; cases hblock

end Branch

namespace Collapse

open LineScope.Tree

structure Sturdy (pending : NodeId → Prop) (t : Tree) (forest : List Branch) : Prop where
  holds : t.Holds forest
  sound : ∀ b ∈ forest, b.Sound pending

def Passes (pending : NodeId → Prop) (forest : List Branch) (o : Outcome Bool) : Prop :=
  ∃ done forest', o.result = .ok done ∧ Sturdy pending o.tree forest' ∧
    Branch.idsOfAll forest ⊆ Branch.idsOfAll forest'

section Steps

variable {p q : NodeId → Prop} {keep : LineSet} {t u : Tree} {forest forest' : List Branch}
  {f g : Frame} {c above : Context} {x : Branch} {run others : List Branch} {n : NodeId}

theorem Sturdy.of_perm (h : Sturdy p t forest) (hperm : forest.Perm forest') :
    Sturdy p t forest' :=
  ⟨h.holds.of_perm hperm, fun b hb => h.sound b (hperm.symm.subset hb)⟩

theorem Sturdy.mono (h : Sturdy p t forest) (hpq : ∀ n, q n → p n) : Sturdy q t forest :=
  ⟨h.holds, fun b hb => (h.sound b hb).mono hpq⟩

theorem Sturdy.fill_sound (h : Sturdy p t (c.fill run ++ others)) :
    ∀ b ∈ c.fill run, b.Sound p := fun b hb => h.sound b (List.mem_append_left _ hb)

theorem Sturdy.run_sound (h : Sturdy p t (c.fill run ++ others)) : ∀ b ∈ run, b.Sound p :=
  Context.sound_of_fill h.fill_sound

theorem Passes.of_perm {o : Outcome Bool} (h : Passes p forest' o) (hperm : forest.Perm forest') :
    Passes p forest o := by
  obtain ⟨done, forest'', hok, hsturdy, hids⟩ := h
  exact ⟨done, forest'', hok, hsturdy, fun m hm => hids ((Branch.idsOfAll_perm hperm).subset hm)⟩

theorem Sturdy.stay (h : Sturdy p t forest) (done : Bool) : Passes p forest ⟨t, .ok done⟩ :=
  ⟨done, forest, rfl, h, List.Subset.refl _⟩

theorem Sturdy.fold {head : Branch} {rest : List Branch} {leaf : Leaf} {text : String}
    (h : Sturdy p t (Context.fill (f :: above) (head :: rest) ++ others))
    (hline : f.symbol.isLine = false) (hsuite : f.symbol = .suite → 2 ≤ f.before.length)
    (hu : u.Holds (Context.fill (f :: above) [.leaf n (verbatim leaf text)] ++
      (head.bare :: rest ++ others))) :
    Passes p (Context.fill (f :: above) (head :: rest) ++ others) ⟨u, .ok true⟩ := by
  refine ⟨true, _, rfl, ⟨hu, fun b hb => ?_⟩, fun m hm => ?_⟩
  · simp only [List.mem_append, List.mem_cons] at hb
    rcases hb with hb | (rfl | hb) | hb
    · exact Context.sound_fold h.fill_sound hline hsuite rfl b hb
    · exact (h.run_sound head List.mem_cons_self).bare
    · exact h.run_sound b (List.mem_cons_of_mem _ hb)
    · exact h.sound b (List.mem_append_right _ hb)
  · rw [Context.mem_idsOfAll_fill] at hm ⊢
    simp only [Branch.idsOfAll, Branch.idsOfAll_append, Branch.bare_ids, List.cons_append,
      List.mem_append] at hm ⊢
    tauto

theorem passes_region (h : Sturdy p t (c.fill [x] ++ others))
    (hblock : x.shape.role.isBlock = true) (hleaves : 2 ≤ x.leaves.length) :
    Passes p (c.fill [x] ++ others)
      (if misses t keep [x.id] then collapseNode t x.id else ⟨t, .ok false⟩) := by
  split
  · cases c with
    | nil =>
      rw [collapseNode_top h.holds]
      exact h.stay false
    | cons f above =>
      match hlist : x.leaves, hleaves with
      | (first, leaf) :: y :: more, _ =>
        have hx := h.run_sound x (List.mem_singleton_self x)
        obtain ⟨u, hok, -, hu, -⟩ :=
          collapseNode_place h.holds hx.full hlist (List.cons_ne_nil y more)
        obtain ⟨hline, hsuite⟩ := (Context.sound_frame h.fill_sound).open_of_block hblock
        rw [hok]
        exact h.fold hline hsuite hu
  · exact h.stay false

theorem passes_header (h : Sturdy p t (Context.fill (f :: above) run ++ others))
    (hline : f.symbol.isLine = false) (hsuite : f.symbol ≠ .suite) :
    Passes p (Context.fill (f :: above) run ++ others)
      (collapseHeader keep t (.ok (run.map Branch.id))) := by
  rw [collapseHeader]
  split
  · cases run with
    | nil => exact h.stay false
    | cons head rest =>
      have hhead := (h.run_sound head List.mem_cons_self).full
      obtain ⟨y, ys, hy⟩ := List.exists_cons_of_ne_nil (Branch.leaves_ne_nil_of_full hhead)
      have htokens : (Branch.leavesOfAll (head :: rest)).map Prod.snd =
          y.2 :: (ys ++ Branch.leavesOfAll rest).map Prod.snd := by
        simp [Branch.leavesOfAll, hy]
      obtain ⟨u, hok, -, hu, -⟩ := collapseRun_siblings h.holds hhead htokens
      rw [hok]
      exact h.fold hline (fun heq => absurd heq hsuite) hu
  · exact h.stay false

/-- A verbatim leaf takes the place of an `async` and of the header behind it. -/
theorem passes_keyword {key owner : NodeId} {token : Leaf} {symbol : Symbol}
    {pre header post : List Branch} {suite : Branch}
    (h : Sturdy p t (Context.fill (g :: above)
      [.leaf key token, .node owner symbol (pre ++ header ++ suite :: post)] ++ others))
    (hasync : token.kind = .async) (hsuite : suite.shape.role = .suite)
    (hvisited : ∀ m, suite.opener? = some m → ¬ p m) :
    Passes p (Context.fill (g :: above)
        [.leaf key token, .node owner symbol (pre ++ header ++ suite :: post)] ++ others)
      (collapseHeader keep t (.ok (key :: header.map Branch.id))) := by
  rw [collapseHeader]
  split
  · obtain ⟨u, hok, -, hu, -⟩ := collapseRun_keyword h.holds
    rw [hok]
    have howner := h.run_sound (.node owner symbol (pre ++ header ++ suite :: post)) (by simp)
    refine ⟨true, _, rfl, ⟨hu, fun b hb => ?_⟩, fun m hm => ?_⟩
    · simp only [List.mem_append, List.mem_cons] at hb
      rcases hb with hb | (rfl | hb) | hb
      · exact Context.sound_keyword h.fill_sound hasync rfl hsuite hvisited b hb
      · exact .leaf ..
      · exact howner.part (by simp [hb])
      · exact h.sound b (List.mem_append_right _ hb)
    · rw [Context.mem_idsOfAll_fill] at hm ⊢
      simp only [Branch.idsOfAll, Branch.ids, Branch.idsOfAll_append, List.cons_append,
        List.nil_append, List.mem_append, List.mem_cons] at hm ⊢
      tauto
  · exact h.stay false

/-- Around a block stands a block, which has no fewer leaves. -/
theorem block_around (h : ∀ b ∈ Context.fill (f :: above) [x], b.Sound p)
    (hblock : x.shape.role.isBlock = true) :
    f.symbol.role.isBlock = true ∧
      x.leaves.length ≤ (Branch.node f.id f.symbol (f.before ++ [x] ++ f.after)).leaves.length := by
  refine ⟨Symbol.isBlock_role ((Context.sound_frame h).isLine (by simp) hblock), ?_⟩
  simp only [Branch.leaves, Branch.leavesOfAll_append, Branch.leavesOfAll, List.length_append,
    List.append_nil]
  omega

/-- What a block ends is a block, and has no fewer leaves. -/
theorem closing_block (h : ∀ b ∈ c.fill [x], b.Sound p) (hblock : x.shape.role.isBlock = true) :
    (closing c x).2.shape.role.isBlock = true ∧
      x.leaves.length ≤ (closing c x).2.leaves.length := by
  induction c generalizing x with
  | nil => exact ⟨hblock, Nat.le_refl _⟩
  | cons f above ih =>
    rw [closing]
    split
    · next hafter =>
      obtain ⟨haround, hle⟩ := block_around h hblock
      rw [Context.fill, List.isEmpty_iff.mp hafter, List.append_nil] at h
      rw [List.isEmpty_iff.mp hafter, List.append_nil] at hle
      obtain ⟨hrole, hmore⟩ := ih h haround
      exact ⟨hrole, hle.trans hmore⟩
    · exact ⟨hblock, Nat.le_refl _⟩

/-- A node of one logical line holds its newline and something in front of it. -/
theorem exists_line {id : NodeId} {symbol : Symbol} {parts : List Branch}
    (h : (Branch.node id symbol parts).Sound p)
    (hsymbol : symbol = .simpleStmt ∨ symbol = .decorator) :
    ∃ init m token, parts = init ++ [.leaf m token] ∧ token.kind = .newline ∧
      2 ≤ (Branch.node id symbol parts).leaves.length := by
  have hlaid : ∃ header : List Role, header ≠ [] ∧ (∀ r ∈ header, r = .inline) ∧
      parts.map (fun b => b.shape.role) = header ++ [.newline] := by
    rcases hsymbol with rfl | rfl <;> exact h.arranged.laid
  obtain ⟨header, hne, -, hroles⟩ := hlaid
  obtain ⟨init, last, rfl, hinit, hlast⟩ := List.map_eq_append_iff.mp hroles
  obtain ⟨b, rfl, hb⟩ := List.map_eq_singleton_iff.mp hlast
  obtain ⟨m, token, rfl, hkind⟩ := b.eq_leaf_of_newline hb
  refine ⟨init, m, token, rfl, hkind, ?_⟩
  have hparts := Branch.length_le_leavesOfAll fun b hb => (h.part hb).full
  have hpos : 0 < init.length := by
    rw [← List.length_map (f := fun b : Branch => b.shape.role), hinit]
    exact List.length_pos_of_ne_nil hne
  rw [Branch.leaves]
  rw [List.length_append, List.length_singleton] at hparts
  omega

theorem two_le_leaves_suite {id : NodeId} {parts : List Branch}
    (h : (Branch.node id .suite parts).Sound p) :
    2 ≤ (Branch.node id .suite parts).leaves.length := by
  obtain ⟨body, -, hroles⟩ := h.arranged.laid
  have hparts := Branch.length_le_leavesOfAll fun b hb => (h.part hb).full
  have hlength : parts.length = body.length + 2 := by
    rw [← List.length_map (f := fun b : Branch => b.shape.role), hroles]
    rfl
  rw [Branch.leaves]
  omega

theorem Sturdy.exists_node (h : Sturdy p t forest) (hn : n ∈ Branch.idsOfAll forest)
    {symbol : Symbol} (hsymbol : t.symbol? n = some symbol) :
    ∃ (c : Context) (parts others : List Branch),
      forest.Perm (c.fill [.node n symbol parts] ++ others) ∧
      Sturdy p t (c.fill [.node n symbol parts] ++ others) := by
  obtain ⟨c, x, others, hperm, rfl⟩ := Context.exists_place hn
  have hplace := h.of_perm hperm
  have hgrows := hplace.holds.run_grows x (List.mem_singleton_self x)
  cases x with
  | leaf id token =>
    rw [Branch.id, hgrows.symbol?_leaf] at hsymbol
    cases hsymbol
  | node id symbol' parts =>
    rw [Branch.id, hgrows.symbol?_node] at hsymbol
    obtain rfl := Option.some.inj hsymbol
    exact ⟨c, parts, others, hperm, hplace⟩

theorem Sturdy.exists_leaf (h : Sturdy p t forest) (hn : n ∈ Branch.idsOfAll forest)
    {kind : TokenKind} (hkind : t.isToken n kind = true) :
    ∃ (c : Context) (token : Leaf) (others : List Branch),
      forest.Perm (c.fill [.leaf n token] ++ others) ∧ token.kind = kind ∧
      Sturdy p t (c.fill [.leaf n token] ++ others) := by
  obtain ⟨c, x, others, hperm, rfl⟩ := Context.exists_place hn
  have hplace := h.of_perm hperm
  have hgrows := hplace.holds.run_grows x (List.mem_singleton_self x)
  cases x with
  | leaf id token =>
    rw [isToken, kind?, Branch.id, hgrows.leaf?_leaf] at hkind
    exact ⟨c, token, others, hperm, by simpa using hkind, hplace⟩
  | node id symbol parts =>
    rw [isToken, kind?, Branch.id, hgrows.leaf?_node] at hkind
    cases hkind

/-- A simple statement decides about all that ends with its newline. -/
theorem simpleStatement_eq {parts : List Branch}
    (h : t.Holds (c.fill [.node n .simpleStmt parts] ++ others))
    (hsound : (Branch.node n .simpleStmt parts).Sound p) :
    simpleStatement keep t n = if misses t keep [(closing c (.node n .simpleStmt parts)).2.id] then
      collapseNode t (closing c (.node n .simpleStmt parts)).2.id else ⟨t, .ok false⟩ := by
  have hgrows := h.run_grows _ (List.mem_singleton_self _)
  have hnodup : (Branch.node n .simpleStmt parts).ids.Nodup := by
    simpa [Branch.idsOfAll] using h.run_nodup
  obtain ⟨init, newline, token, rfl, hkind, -⟩ := exists_line hsound (.inl rfl)
  have hlast : (Branch.node n .simpleStmt (init ++ [.leaf newline token])).leaves.getLast? =
      some (newline, token) := by
    simp [Branch.leaves, Branch.leavesOfAll]
  have hlastLeaf : t.lastLeaf? n = some newline := by
    have hdescend := hgrows.lastLeaf? hnodup hsound.full
    rwa [hlast, Option.map_some] at hdescend
  have htoken : t.isToken newline .newline = true := by
    simp [isToken, kind?, hgrows.leaf?_of_mem (List.mem_of_getLast? hlast), hkind]
  have hregion : furthestEndingWith t newline =
      (closing c (.node n .simpleStmt (init ++ [.leaf newline token]))).2.id :=
    furthestEndingWith_eq (c := ⟨n, .simpleStmt, init, []⟩ :: c) (x := .leaf newline token)
      (by simpa [Context.fill] using h)
  simp only [simpleStatement, hlastLeaf, htoken, if_true, hregion]

theorem passes_simpleStatement (h : Sturdy p t forest) (hn : n ∈ Branch.idsOfAll forest)
    (hsymbol : t.symbol? n = some .simpleStmt) : Passes p forest (simpleStatement keep t n) := by
  obtain ⟨c, parts, others, hperm, hplace⟩ := h.exists_node hn hsymbol
  have hsound := hplace.run_sound _ (List.mem_singleton_self _)
  obtain ⟨-, -, -, -, -, hleaves⟩ := exists_line hsound (.inl rfl)
  obtain ⟨hblock, hle⟩ := closing_block hplace.fill_sound rfl
  rw [simpleStatement_eq hplace.holds hsound]
  rw [← fill_closing c] at hplace hperm
  exact (passes_region hplace hblock (hleaves.trans hle)).of_perm hperm

theorem passes_suite (h : Sturdy p t forest) (hn : n ∈ Branch.idsOfAll forest)
    (hsymbol : t.symbol? n = some .suite) : Passes p forest (suite keep t n) := by
  obtain ⟨c, parts, others, hperm, hplace⟩ := h.exists_node hn hsymbol
  have hsound := hplace.run_sound _ (List.mem_singleton_self _)
  have hparent : t.parent? n = c.parent := hplace.holds.parent? (List.mem_singleton_self _)
  rw [suite]
  split
  · exact h.stay false
  · rw [suiteOwner?, hparent]
    cases c with
    | nil => exact h.stay false
    | cons f above =>
      obtain ⟨hblock, hle⟩ := block_around hplace.fill_sound rfl
      have hleaves := (two_le_leaves_suite hsound).trans hle
      have howner : Sturdy p t (Context.fill above [.node f.id f.symbol
          (f.before ++ [.node n .suite parts] ++ f.after)] ++ others) := hplace
      have hup : t.parent? f.id = Context.parent above :=
        howner.holds.parent? (List.mem_singleton_self _)
      simp only [Context.parent, List.head?_cons, Option.map_some]
      split
      · exact h.stay false
      · next region hregion =>
        split at hregion
        · rw [hup] at hregion
          cases above with
          | nil => cases hregion
          | cons g above =>
            obtain rfl := Option.some.inj hregion
            obtain ⟨hblock', hle'⟩ := block_around howner.fill_sound hblock
            exact (passes_region (c := above) howner hblock' (hleaves.trans hle')).of_perm hperm
        · obtain rfl := Option.some.inj hregion
          exact (passes_region howner hblock hleaves).of_perm hperm

theorem passes_statement (h : Sturdy p t forest) (hn : n ∈ Branch.idsOfAll forest)
    (hsymbol : t.symbol? n = some .simpleStmt ∨ t.symbol? n = some .suite) :
    Passes p forest (statement keep t n) := by
  rw [statement, isSymbol]
  rcases hsymbol with hsymbol | hsymbol <;> rw [hsymbol]
  · exact passes_simpleStatement h hn hsymbol
  · exact passes_suite h hn hsymbol

theorem passes_closedBy (keep : LineSet) {token : Leaf}
    (h : Sturdy p t (Context.fill (f :: above) [.leaf n token] ++ others))
    (hsymbol : f.symbol = .simpleStmt ∨ f.symbol = .decorator) (hafter : f.after = []) :
    Passes p (Context.fill (f :: above) [.leaf n token] ++ others)
      (if misses t keep [closedBy t n] then collapseNode t (closedBy t n) else ⟨t, .ok false⟩) := by
  have hframe := Context.sound_frame h.fill_sound
  obtain ⟨-, -, -, -, -, hleaves⟩ := exists_line hframe hsymbol
  have hblock : f.symbol.role.isBlock = true := by
    rcases hsymbol with hsymbol | hsymbol <;> rw [hsymbol] <;> rfl
  rw [hafter, List.append_nil] at hleaves
  obtain ⟨c, top, hclosing⟩ : ∃ c top,
      closing above (.node f.id f.symbol (f.before ++ [.leaf n token])) = (c, top) := ⟨_, _, rfl⟩
  have hfill : Context.fill (f :: above) [.leaf n token] = Context.fill c [top] := by
    have hfill := fill_closing above (.node f.id f.symbol (f.before ++ [.leaf n token]))
    rw [hclosing] at hfill
    rw [hfill, Context.fill, hafter, List.append_nil]
  have htop : furthestEndingWith t n = top.id := by
    have hend := furthestEndingWith_eq h.holds
    rw [closing, hafter, List.isEmpty_nil, if_pos rfl, hclosing] at hend
    exact hend
  obtain ⟨htopBlock, hle⟩ := closing_block
    (x := .node f.id f.symbol (f.before ++ [.leaf n token])) (c := above)
    (by simpa [Context.fill, hafter] using h.fill_sound) hblock
  rw [hclosing] at htopBlock hle
  rw [hfill] at h ⊢
  have hparent : t.parent? top.id = c.parent := h.holds.parent? (List.mem_singleton_self top)
  simp only [closedBy, htop, hparent]
  cases c with
  | nil => exact passes_region h htopBlock (hleaves.trans hle)
  | cons g above =>
    simp only [Context.parent, List.head?_cons, Option.map_some]
    split
    · obtain ⟨hblock', hle'⟩ := block_around h.fill_sound htopBlock
      exact passes_region (c := above) h hblock' ((hleaves.trans hle).trans hle')
    · exact passes_region h htopBlock (hleaves.trans hle)

theorem passes_matchHeader {token : Leaf}
    (h : Sturdy p t (Context.fill (f :: above) [.leaf n token] ++ others))
    (hsymbol : f.symbol = .matchStmt) (hbefore : f.before ≠ []) :
    Passes p (Context.fill (f :: above) [.leaf n token] ++ others)
      (collapseHeader keep t (matchHeader t f.id n)) := by
  have hfill : Context.fill (f :: above) [.leaf n token] =
      Context.fill (⟨f.id, f.symbol, [], .leaf n token :: f.after⟩ :: above) f.before := by
    simp [Context.fill]
  have hheader : matchHeader t f.id n = .ok (f.before.map Branch.id) := by
    have htake := h.holds.takeWhile_children
    rw [Branch.id] at htake
    rw [matchHeader, htake]
    split
    · next hnil => exact absurd (List.map_eq_nil_iff.mp hnil) hbefore
    · rfl
  rw [hheader]
  rw [hfill] at h ⊢
  exact passes_header h (by rw [hsymbol]; rfl) (by rw [hsymbol]; decide)

theorem headerBefore_ne_nil {b : Branch} {pre : List Branch} {parent : Option NodeId}
    (hgrows : t.Grows parent b) (hrole : b.shape.role ≠ .suite) :
    headerBefore t ((pre ++ [b]).map Branch.id) ≠ [] := by
  have hsymbol : t.isSymbol b.id .suite = false := by
    cases b with
    | leaf id token => simp [isSymbol, Branch.id, hgrows.symbol?_leaf]
    | node id symbol parts =>
      have hne : symbol ≠ .suite := by
        rintro rfl
        exact hrole rfl
      simp [isSymbol, Branch.id, hgrows.symbol?_node, hne]
  simp [headerBefore, hsymbol]

theorem passes_ledHeader {suite : Branch} {pre header : List Branch} {prev : NodeId}
    (h : Sturdy q t (Context.fill (g :: above) [suite] ++ others)) (hbefore : g.before = pre ++ header)
    (hsuite : suite.shape.role = .suite) (hvisited : ∀ m, suite.opener? = some m → ¬ q m)
    (hprev : t.prevSibling? g.id = some prev) (hasync : t.isToken prev .async = true) :
    Passes q (Context.fill (g :: above) [suite] ++ others)
      (collapseHeader keep t (.ok (prev :: header.map Branch.id))) := by
  have howner : Sturdy q t (Context.fill above [.node g.id g.symbol
      (g.before ++ [suite] ++ g.after)] ++ others) := h
  cases above with
  | nil =>
    have hnone : t.parent? g.id = none := howner.holds.parent? (List.mem_singleton_self _)
    simp [Tree.prevSibling?, Tree.siblings?, hnone] at hprev
  | cons e above =>
    have hlast : e.before.getLast?.map Branch.id = some prev :=
      howner.holds.prevSibling?.symm.trans hprev
    obtain ⟨k, hk, rfl⟩ := Option.map_eq_some_iff.mp hlast
    obtain ⟨epre, hepre⟩ := List.getLast?_eq_some_iff.mp hk
    have hfill : Context.fill (g :: e :: above) [suite] =
        Context.fill (⟨e.id, e.symbol, epre, e.after⟩ :: above)
          [k, .node g.id g.symbol (pre ++ header ++ suite :: g.after)] := by
      simp [Context.fill, hbefore, hepre]
    rw [hfill] at h ⊢
    have hgrows := h.holds.run_grows k List.mem_cons_self
    cases k with
    | node id symbol parts => simp [isToken, kind?, Branch.id, hgrows.leaf?_node] at hasync
    | leaf key token =>
      refine passes_keyword h ?_ hsuite hvisited
      simpa [isToken, kind?, Branch.id, hgrows.leaf?_leaf] using hasync

/-- The newline of a suite, which is not pending any more afterwards. -/
theorem passes_suiteHeader {suite : Branch}
    (h : Sturdy p t (Context.fill (g :: above) [suite] ++ others))
    (hsuite : suite.shape.role = .suite) (hopener : suite.opener? = some n) (hn : p n)
    (hq : ∀ m, q m ↔ p m ∧ m ≠ n) :
    Passes q (Context.fill (g :: above) [suite] ++ others)
      (collapseHeader keep t (suiteHeader t suite.id n)) := by
  have hframe := Context.sound_frame h.fill_sound
  have hlaid := hframe.arranged.laid.of_suite (by simp [hsuite])
  have hparent : t.parent? suite.id = some g.id := h.holds.parent? (List.mem_singleton_self _)
  have hled : Branch.Led p .suite (g.before ++ suite :: g.after) := by
    simpa using hframe.arranged.led
  obtain ⟨pre', b, hbefore', hrole⟩ := hled.exists_header hopener hn
  have hgrows : t.Grows (some g.id) b := by
    have hplace : t.Holds (Context.fill
        (⟨g.id, g.symbol, pre', suite :: g.after⟩ :: above) [b] ++ others) := by
      simpa [Context.fill, hbefore'] using h.holds
    exact hplace.run_grows b (List.mem_singleton_self b)
  obtain ⟨pre, header, hbefore, hheader, -⟩ := exists_headerBefore t g.before
  have hne : header.map Branch.id ≠ [] := by
    rw [← hheader, hbefore']
    exact headerBefore_ne_nil hgrows hrole
  have h := h.mono (q := q) fun m hm => ((hq m).mp hm).1
  have hvisited : ∀ m, suite.opener? = some m → ¬ q m := fun m hm hqm => by
    rw [hopener] at hm
    exact ((hq m).mp hqm).2 (Option.some.inj hm).symm
  have hsiblings : Passes q (Context.fill (g :: above) [suite] ++ others)
      (collapseHeader keep t (.ok (header.map Branch.id))) := by
    have hfill : Context.fill (g :: above) [suite] =
        Context.fill (⟨g.id, g.symbol, pre, suite :: g.after⟩ :: above) header := by
      simp [Context.fill, hbefore]
    rw [hfill] at h ⊢
    exact passes_header h hlaid.1 hlaid.2.1
  rw [suiteHeader, hparent, h.holds.siblings?]
  simp only [hheader]
  split
  · next hnil => exact absurd hnil hne
  · next prev hprev _ =>
    split
    · next hasync => exact passes_ledHeader h hbefore hsuite hvisited hprev hasync
    · exact hsiblings
  · exact hsiblings

theorem passes_logicalLine (h : Sturdy p t forest) (hmem : n ∈ Branch.idsOfAll forest)
    (htoken : t.isToken n .newline = true) (hroot : t.symbol? rootId = some .fileInput) (hn : p n)
    (hq : ∀ m, q m ↔ p m ∧ m ≠ n) : Passes q forest (logicalLine keep t n) := by
  have hweak := h.mono (q := q) fun m hm => ((hq m).mp hm).1
  rw [logicalLine]
  split
  · exact hweak.stay false
  · next hattached =>
    obtain ⟨c, token, others, hperm, hkind, hplace⟩ := h.exists_leaf hmem htoken
    have hparent : t.parent? n = c.parent := hplace.holds.parent? (List.mem_singleton_self _)
    have hrole : (Branch.leaf n token).shape.role = .newline := by
      rw [Branch.shape, Shape.role, hkind]
      rfl
    cases c with
    | nil =>
      rw [hparent]
      exact hweak.stay false
    | cons f above =>
      have hsymbol : t.symbol? f.id = some f.symbol := hplace.holds.symbol?_parent
      have hlaid := (Context.sound_frame hplace.fill_sound).arranged.laid
      simp only [List.map_append, List.map_cons, hrole, List.append_assoc,
        List.singleton_append] at hlaid
      rw [hparent]
      simp only [Context.parent, List.head?_cons, Option.map_some, hsymbol]
      refine Passes.of_perm ?_ hperm
      have hplaceq := hplace.mono (q := q) fun m hm => ((hq m).mp hm).1
      rcases hlaid.newline with ⟨hline, -, hafter⟩ | ⟨hsuite, hbefore⟩ | ⟨hmatch, hbefore⟩
      · have hafter := List.map_eq_nil_iff.mp hafter
        have hclosed := passes_closedBy keep hplaceq hline hafter
        rcases hline with hline | hline <;> simp only [hline] <;> exact hclosed
      · simp only [hsuite]
        have hbefore := List.map_eq_nil_iff.mp hbefore
        cases above with
        | nil =>
          have hlineage := hplace.holds.lineage (List.mem_singleton_self _)
          simp only [Bool.not_eq_true', Bool.not_eq_false, isAttached, Branch.id] at hattached hlineage
          rw [hlineage] at hattached
          have hid : f.id = rootId := by simpa using hattached
          rw [hid, hroot, hsuite] at hsymbol
          cases hsymbol
        | cons g above =>
          have hsuiteHolds : Sturdy p t (Context.fill (g :: above) [.node f.id f.symbol
              (f.before ++ [.leaf n token] ++ f.after)] ++ others) := hplace
          have hopens : (Branch.node f.id f.symbol
              (f.before ++ [.leaf n token] ++ f.after)).opener? = some n := by
            rw [hsuite, hbefore]
            rfl
          exact passes_suiteHeader hsuiteHolds (by rw [hsuite]; rfl) hopens hn hq
      · simp only [hmatch]
        exact passes_matchHeader hplaceq hmatch fun hnil => hbefore (by rw [hnil]; rfl)

end Steps

/-- A sweep succeeds if each step does and keeps what the steps after it rely on. -/
theorem sweep_ok (step : Tree → NodeId → Outcome Bool) (Inv : List NodeId → Tree → Prop)
    (hstep : ∀ {t : Tree} {n : NodeId} {rest : List NodeId}, Inv (n :: rest) t →
      (∃ done, (step t n).result = .ok done) ∧ Inv rest (step t n).tree)
    {t : Tree} {ns : List NodeId} (h : Inv ns t) (count : Nat) :
    ∃ u total, sweep step t count ns = ⟨u, .ok total⟩ ∧ Inv [] u := by
  induction ns generalizing t count with
  | nil => exact ⟨t, count, rfl, h⟩
  | cons n rest ih =>
    obtain ⟨⟨done, hok⟩, hnext⟩ := hstep h
    have heq : step t n = ⟨(step t n).tree, .ok done⟩ := by rw [← hok]
    obtain ⟨u, total, hsweep, hu⟩ := ih hnext (if done then count + 1 else count)
    refine ⟨u, total, ?_, hu⟩
    rw [sweep, heq]
    exact hsweep

/-- A sound store below a file, with nodes still to be visited. What they are is told by their
labels, which no step changes. -/
structure Ready (pending : NodeId → Prop) (P : Option Symbol → Option TokenKind → Prop)
    (listed : List NodeId) (t : Tree) (forest : List Branch) : Prop where
  sturdy : Sturdy pending t forest
  root_mem : rootId ∈ Branch.idsOfAll forest
  root_symbol : t.symbol? rootId = some .fileInput
  listed_mem : ∀ n ∈ listed, n ∈ Branch.idsOfAll forest
  labels : ∀ n ∈ listed, P (t.symbol? n) (t.kind? n)

section Passes

variable {p q : NodeId → Prop} {P : Option Symbol → Option TokenKind → Prop} {keep : LineSet}
  {t : Tree} {forest : List Branch} {n : NodeId} {rest : List NodeId}

theorem Ready.next (h : Ready p P (n :: rest) t forest) {o : Outcome Bool}
    (ho : Passes q forest o) (hlabels : SameLabels t o.tree) :
    (∃ done, o.result = .ok done) ∧ ∃ forest', Ready q P rest o.tree forest' := by
  obtain ⟨done, forest', hok, hsturdy, hids⟩ := ho
  have hlt {m : NodeId} (hm : m ∈ Branch.idsOfAll forest) := hlabels.2 m (h.sturdy.holds.lt_size hm)
  have hmem {m : NodeId} (hm : m ∈ rest) := h.listed_mem m (List.mem_cons_of_mem _ hm)
  refine ⟨⟨done, hok⟩, forest', hsturdy, hids h.root_mem, ?_, fun m hm => hids (hmem hm),
    fun m hm => ?_⟩
  · rw [(hlt h.root_mem).1]
    exact h.root_symbol
  · rw [(hlt (hmem hm)).1, (hlt (hmem hm)).2]
    exact h.labels m (List.mem_cons_of_mem _ hm)

theorem statementPass_ok {root : Branch} (h : Ready p P [] t [root]) (hid : root.id = rootId) :
    ∃ u total forest', statementPass keep t = ⟨u, .ok total⟩ ∧ Ready p P [] u forest' := by
  have hgrows := h.sturdy.holds.grows root (List.mem_singleton_self root)
  have hlisted : ∀ n ∈ statements t, n ∈ root.ids :=
    mem_ids_of_mem_statementsBelow hgrows h.sturdy.holds.linked
      (by simpa using hid ▸ root.id_mem_ids)
  have hstart : ∃ forest, Ready p (fun symbol _ => symbol = some .simpleStmt ∨ symbol = some .suite)
      (statements t) t forest :=
    ⟨[root], h.sturdy, h.root_mem, h.root_symbol,
      fun n hn => Branch.ids_subset_idsOfAll (List.mem_singleton_self root) (hlisted n hn),
      symbol?_of_mem_statementsBelow⟩
  obtain ⟨u, total, hsweep, forest', hu⟩ := sweep_ok (statement keep)
    (fun ns t => ∃ forest, Ready p _ ns t forest) (by
      rintro t n rest ⟨forest, hready⟩
      exact hready.next (passes_statement hready.sturdy (hready.listed_mem n List.mem_cons_self)
        (hready.labels n List.mem_cons_self)) ((lasting_sameLabels t).statement (.refl t) n)) hstart 0
  exact ⟨u, total, forest', hsweep, hu.sturdy, hu.root_mem, hu.root_symbol, by simp, by simp⟩

theorem linePass_ok (keep : LineSet) (h : Ready p P [] t forest) (hall : ∀ n, p n) :
    ∃ u total, linePass keep t = ⟨u, .ok total⟩ := by
  obtain ⟨c, x, others, hperm, hx⟩ := Context.exists_place h.root_mem
  have hplace := h.sturdy.holds.of_perm hperm
  have hgrows := hplace.run_grows x (List.mem_singleton_self x)
  have hnodup : x.ids.Nodup := by simpa [Branch.idsOfAll] using hplace.run_nodup
  have hleaves : (newlines t).Sublist x.ids := by
    rw [newlines, ← hx, hgrows.leaves_eq hnodup]
    exact List.filter_sublist.trans x.leaves_map_fst_sublist
  have hmem : ∀ n ∈ newlines t, n ∈ Branch.idsOfAll forest := fun n hn => by
    rw [(Branch.idsOfAll_perm hperm).mem_iff, Context.mem_idsOfAll_fill]
    exact .inl (by simpa [Branch.idsOfAll] using hleaves.subset hn)
  have hstart : (newlines t).Nodup ∧ ∃ forest,
      Ready (· ∈ newlines t) (fun _ kind => kind = some .newline) (newlines t) t forest :=
    ⟨hleaves.nodup hnodup, forest, h.sturdy.mono fun n _ => hall n, h.root_mem, h.root_symbol, hmem,
      fun n hn => by simpa [newlines, isToken] using (List.mem_filter.mp hn).2⟩
  obtain ⟨u, total, hsweep, -⟩ := sweep_ok (logicalLine keep)
    (fun ns t => ns.Nodup ∧ ∃ forest, Ready (· ∈ ns) _ ns t forest)
    (by
      rintro t n rest ⟨hnodup, forest, hready⟩
      have hfresh := List.nodup_cons.mp hnodup
      have hpasses : Passes (· ∈ rest) forest (logicalLine keep t n) := by
        refine passes_logicalLine hready.sturdy (hready.listed_mem n List.mem_cons_self) ?_
          hready.root_symbol List.mem_cons_self fun m => ?_
        · simpa [isToken] using hready.labels n List.mem_cons_self
        · rw [List.mem_cons]
          exact ⟨fun hm => ⟨.inr hm, fun heq => hfresh.1 (heq ▸ hm)⟩,
            fun hm => hm.1.resolve_left hm.2⟩
      obtain ⟨hok, hrest⟩ := hready.next hpasses ((lasting_sameLabels t).logicalLine (.refl t) n)
      exact ⟨hok, hfresh.2, hrest⟩) hstart 0
  exact ⟨u, total, hsweep⟩

/-- A file of sound branches collapses. -/
theorem collapseUnchanged_ok {root : Branch} (hholds : t.Holds [root]) (hid : root.id = rootId)
    (hsound : root.Sound fun _ => True) (hsymbol : t.symbol? rootId = some .fileInput)
    (ranges : List LineRange) (wholeStatements : Bool) :
    ∃ summary, (t.collapseUnchanged ranges wholeStatements).result = .ok summary := by
  have hstart : Ready (fun _ => True) (fun _ _ => True) [] t [root] :=
    ⟨⟨hholds, by simpa using hsound⟩, by simpa [Branch.idsOfAll] using hid ▸ root.id_mem_ids,
      hsymbol, by simp, by simp⟩
  have hfirst : ∃ u total forest',
      (if wholeStatements then statementPass (.ofRanges ranges) t else ⟨t, .ok 0⟩ : Outcome Nat) =
        ⟨u, .ok total⟩ ∧ Ready (fun _ => True) (fun _ _ => True) [] u forest' := by
    split
    · exact statementPass_ok hstart hid
    · exact ⟨t, 0, [root], rfl, hstart⟩
  obtain ⟨u, statements, forest', hpass, hready⟩ := hfirst
  obtain ⟨v, lines, hlines⟩ := linePass_ok (.ofRanges ranges) hready fun _ => trivial
  refine ⟨⟨statements, lines⟩, ?_⟩
  rw [Tree.collapseUnchanged]
  simp only [hpass, hlines]

end Passes

end Collapse

end LineScope
