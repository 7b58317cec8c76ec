import LineScope.Proofs.Collapse.LineTokens
import LineScope.Proofs.Collapse.Sweeps

/-!
# What one newline does

The three places in which a newline stands: at the end of a statement with something after it, after
the header of a match, and at the start of a suite. For each, the branch that the line pass leaves
when it comes to that newline.
-/
namespace LineScope

namespace Branch

/-- Neither `async` nor a node that collapsing looks for among its neighbours. -/
def Quiet : Branch → Prop
  | .leaf _ token => token.kind ≠ .async
  | .node _ symbol _ => symbol ≠ .suite ∧ symbol ≠ .decorator

def isAsync : Branch → Bool
  | .leaf _ token => token.kind = .async
  | .node _ _ _ => false

theorem Quiet.isAsync {b : Branch} (h : b.Quiet) : b.isAsync = false := by
  cases b with
  | leaf id token => simpa [Branch.isAsync, Quiet] using h
  | node id symbol parts => rfl

def isSuite : Branch → Bool
  | .leaf _ _ => false
  | .node _ symbol _ => symbol = .suite

theorem isSuite_iff {b : Branch} : b.isSuite = true ↔ b.shape.symbol? = some .suite := by
  cases b with
  | leaf id token => exact iff_of_false nofun nofun
  | node id symbol parts => simp [isSuite, shape, Shape.symbol?]

theorem Quiet.isSuite {b : Branch} (h : b.Quiet) : b.isSuite = false := by
  cases b with
  | leaf id token => rfl
  | node id symbol parts => simpa [Branch.isSuite] using h.1

inductive Ends (n : NodeId) (newline : Leaf) : Branch → Prop
  | simple {id : NodeId} {parts : List Branch} (nonempty : parts ≠ []) :
      Ends n newline (.node id .simpleStmt (parts ++ [.leaf n newline]))
  | last {id : NodeId} {symbol : Symbol} {parts : List Branch} {b : Branch}
      (h : Ends n newline b) : Ends n newline (.node id symbol (parts ++ [b]))

theorem Ends.exists_context {n : NodeId} {newline : Leaf} {b : Branch} (h : Ends n newline b) :
    ∃ (id : NodeId) (parts : List Branch) (d : Context), parts ≠ [] ∧ (∀ f ∈ d, f.after = []) ∧
      Context.fill (⟨id, .simpleStmt, parts, []⟩ :: d) [.leaf n newline] = [b] := by
  induction h with
  | @simple id parts nonempty =>
    refine ⟨id, parts, [], nonempty, by simp, ?_⟩
    simp [Context.fill]
  | @last id symbol parts b h ih =>
    obtain ⟨id', parts', d, hne, hafter, hfill⟩ := ih
    refine ⟨id', parts', d ++ [⟨id, symbol, parts, []⟩], hne, ?_, ?_⟩
    · intro f hf
      rcases List.mem_append.mp hf with hf | hf
      · exact hafter f hf
      · rw [List.mem_singleton.mp hf]
    · rw [← List.cons_append, Context.fill_append, hfill]
      simp [Context.fill]

theorem Ends.getLast?_leaves {n : NodeId} {newline : Leaf} {b : Branch} (h : Ends n newline b) :
    b.leaves.getLast? = some (n, newline) := by
  induction h with
  | simple nonempty => simp [leaves, leavesOfAll]
  | last h ih => simp [leaves, leavesOfAll, List.getLast?_append, ih]

theorem Ends.exists_cons {n : NodeId} {newline : Leaf} {b : Branch} (h : Ends n newline b)
    (hfull : b.shape.Full) : ∃ x xs, b.leaves = x :: xs ∧ xs ≠ [] := by
  induction h with
  | @simple id parts nonempty =>
    obtain ⟨p, rest, rfl⟩ := List.exists_cons_of_ne_nil nonempty
    have hp := (full_of_mem hfull).2 p (by simp)
    obtain ⟨x, xs, hx⟩ := List.exists_cons_of_ne_nil (leaves_ne_nil_of_full hp)
    refine ⟨x, xs ++ leavesOfAll (rest ++ [.leaf n newline]), ?_, ?_⟩
    · simp [leaves, leavesOfAll, hx]
    · simp [leavesOfAll, leaves]
  | @last id symbol parts b h ih =>
    obtain ⟨x, xs, hx, hne⟩ := ih ((full_of_mem hfull).2 b (by simp))
    cases hparts : leavesOfAll parts with
    | nil => exact ⟨x, xs, by simp [leaves, leavesOfAll, hparts, hx], hne⟩
    | cons y ys =>
      refine ⟨y, ys ++ (x :: xs), by simp [leaves, leavesOfAll, hparts, hx], by simp⟩

end Branch

namespace Collapse

open LineScope.Tree

theorem closing_of_nil {f : Frame} {above : Context} (x : Branch) (hafter : f.after = []) :
    closing (f :: above) x = closing above (.node f.id f.symbol (f.before ++ [x])) := by
  rw [closing, if_pos (by simpa using hafter)]

theorem closing_append {d c : Context} {x b : Branch} (hafter : ∀ f ∈ d, f.after = [])
    (hfill : d.fill [x] = [b]) : closing (d ++ c) x = closing c b := by
  induction d generalizing x with
  | nil =>
    rw [Context.fill, List.singleton_inj] at hfill
    rw [List.nil_append, hfill]
  | cons f above ih =>
    rw [List.forall_mem_cons] at hafter
    rw [List.cons_append, closing_of_nil x hafter.1]
    refine ih hafter.2 ?_
    rw [Context.fill, hafter.1, List.append_nil] at hfill
    exact hfill

theorem closing_of_ne_nil {f : Frame} {above : Context} (x : Branch) (hafter : f.after ≠ []) :
    closing (f :: above) x = (f :: above, x) := by
  rw [closing, if_neg (by simpa using hafter)]

section Regions

variable {keep : LineSet} {t : Tree} {f g : Frame} {above c : Context} {x b : Branch}
  {others : List Branch} {n : NodeId} {newline : Leaf}

/-- The newline of a simple statement or of a decorator decides about what it closes. -/
theorem logicalLine_closedBy (h : t.Holds (Context.fill (g :: c) [x] ++ others))
    (hrooted : Context.Rooted (g :: c)) (hmatch : g.symbol ≠ .matchStmt)
    (hsuite : g.symbol ≠ .suite) :
    logicalLine keep t x.id =
      if misses t keep [closedBy t x.id] then collapseNode t (closedBy t x.id)
      else ⟨t, .ok false⟩ := by
  have hattached : t.isAttached x.id = true :=
    h.isAttached hrooted (by simp [Branch.idsOfAll, Branch.id_mem_ids])
  have hparent : t.parent? x.id = some g.id := h.parent? (by simp)
  have hsymbol : t.symbol? g.id = some g.symbol := h.symbol?_parent
  simp only [logicalLine, hattached, hparent, hsymbol, Bool.not_true, Bool.false_eq_true, if_false]
  split
  · next heq => exact absurd (Option.some.inj heq) hmatch
  · next heq => exact absurd (Option.some.inj heq) hsuite
  · rfl

/-- A region that several newlines decide about: once it is verbatim, the newlines left in it are
loose. -/
theorem turns_region (h : t.Holds (Context.fill (f :: above) [b] ++ others))
    (hrooted : Context.Rooted (f :: above)) (hfull : b.shape.Full) {y : NodeId × Leaf}
    {ys : List (NodeId × Leaf)} (hleaves : b.leaves = y :: ys) (hys : ys ≠ []) {ns : List NodeId}
    (hne : ns ≠ []) (hns : ns ⊆ b.ids)
    (hstep : ∀ n ∈ ns, logicalLine keep t n =
      if misses t keep [b.id] then collapseNode t b.id else ⟨t, .ok false⟩) :
    Turns (logicalLine keep) t ns (f :: above) others fun run => ∃ x : Branch, run = [x] ∧
      x.shape.Full ∧ (x = b ∨ ∃ m leaf, x = .leaf m leaf ∧ leaf.kind = .verbatim) ∧
      x.shape.tokens = sealRun keep b.shape.tokens := by
  have hstay {u : Tree} {ns : List NodeId}
      (hu : ∀ n ∈ ns, logicalLine keep u n = ⟨u, .ok false⟩) :
      Swept (logicalLine keep) u ns u := by
    induction ns with
    | nil => exact .nil u
    | cons n ns ih =>
      rw [List.forall_mem_cons] at hu
      exact .cons hu.1 (ih hu.2)
  rw [misses_node keep h hfull, ← Branch.tokens_shape] at hstep
  unfold sealRun
  by_cases hclear : clear keep b.shape.tokens = true
  · obtain ⟨n, rest, rfl⟩ := List.exists_cons_of_ne_nil hne
    obtain ⟨u, hok, -, hu, -⟩ := collapseNode_place h hfull hleaves hys
    rw [List.forall_mem_cons, if_pos hclear, hok] at hstep
    have hrest : ∀ m ∈ rest, logicalLine keep u m = ⟨u, .ok false⟩ := by
      intro m hm
      have hloose : u.isAttached m = false := by
        refine hu.not_isAttached hrooted ?_
        rw [Branch.idsOfAll, Branch.bare_ids]
        exact List.mem_append_left _ (hns (List.mem_cons_of_mem n hm))
      simp [logicalLine, hloose]
    rw [if_pos hclear]
    refine ⟨u, _, _, .cons hstep.1 (hstay hrest), hu, List.suffix_cons _ _, _, rfl, .leaf _,
      .inr ⟨_, _, rfl, rfl⟩, ?_⟩
    rw [Branch.tokens_shape b, hleaves]
    rfl
  · rw [if_neg hclear] at hstep ⊢
    exact ⟨t, [b], others, hstay hstep, h, List.suffix_rfl, b, rfl, hfull, .inl rfl, rfl⟩

theorem furthestEndingWith_of_ends (h : t.Holds (c.fill [b] ++ others))
    (hends : b.Ends n newline) : furthestEndingWith t n = (closing c b).2.id := by
  obtain ⟨id, parts, d, -, hafter, hfill⟩ := hends.exists_context
  have hplace : t.Holds (Context.fill ((⟨id, .simpleStmt, parts, []⟩ :: d) ++ c)
      [.leaf n newline] ++ others) := by
    rw [Context.fill_append, hfill]
    exact h
  have htop := furthestEndingWith_eq hplace
  rw [closing_append (List.forall_mem_cons.mpr ⟨rfl, hafter⟩) hfill] at htop
  exact htop

theorem closedBy_of_ends (h : t.Holds (Context.fill (f :: above) [b] ++ others))
    (hafter : f.after ≠ []) (hends : b.Ends n newline) (hquiet : b.Quiet) :
    closedBy t n = b.id := by
  have htop := furthestEndingWith_of_ends h hends
  rw [closing_of_ne_nil b hafter] at htop
  have hb : t.isSymbol b.id .decorator = false := by
    have hgrows := h.run_grows b (by simp)
    cases b with
    | leaf id token => simp [isSymbol, Branch.id, hgrows.symbol?_leaf]
    | node id symbol parts =>
      have hne : symbol ≠ .decorator := hquiet.2
      simpa [isSymbol, Branch.id, hgrows.symbol?_node] using hne
  rw [closedBy, htop]
  cases t.parent? b.id with
  | none => rfl
  | some p => simp [hb]

/-- A statement with something after it, once its last newline is reached. -/
theorem turns_closed (h : t.Holds (Context.fill (f :: above) [b] ++ others))
    (hrooted : Context.Rooted (f :: above)) (hafter : f.after ≠ []) (hends : b.Ends n newline)
    (hquiet : b.Quiet) (hfull : b.shape.Full) :
    Turns (logicalLine keep) t [n] (f :: above) others fun run => ∃ x : Branch, run = [x] ∧
      x.shape.Full ∧ x.Quiet ∧ x.shape.tokens = sealRun keep b.shape.tokens := by
  obtain ⟨y, ys, hleaves, hys⟩ := hends.exists_cons hfull
  have hmem : n ∈ b.ids := b.leaves_map_fst_sublist.subset
    (List.mem_map_of_mem (List.mem_of_getLast? hends.getLast?_leaves))
  obtain ⟨id, parts, d, -, -, hfill⟩ := hends.exists_context
  have hplace : t.Holds (Context.fill (⟨id, .simpleStmt, parts, []⟩ :: (d ++ f :: above))
      [.leaf n newline] ++ others) := by
    rw [← List.cons_append, Context.fill_append, hfill]
    exact h
  have hdrooted : Context.Rooted (⟨id, .simpleStmt, parts, []⟩ :: (d ++ f :: above)) := by
    refine Context.Rooted.cons ?_ _
    clear hplace hfill
    induction d with
    | nil => exact hrooted
    | cons g d ih => exact Context.Rooted.cons ih _
  have hstep : logicalLine keep t n =
      if misses t keep [b.id] then collapseNode t b.id else ⟨t, .ok false⟩ := by
    have hline := @logicalLine_closedBy keep t _ _ _ _ hplace hdrooted (by simp) (by simp)
    simp only [Branch.id, closedBy_of_ends h hafter hends hquiet] at hline
    exact hline
  have hturns := turns_region h hrooted hfull hleaves hys (List.cons_ne_nil n [])
    (by simpa using hmem) (by simpa using hstep)
  refine hturns.mono ?_
  rintro run ⟨x, rfl, hx, hcases, htokens⟩
  refine ⟨x, rfl, hx, ?_, htokens⟩
  rcases hcases with rfl | ⟨m, leaf, rfl, hkind⟩
  · exact hquiet
  · simp [Branch.Quiet, hkind]

end Regions

section Headers

variable {keep : LineSet} {t : Tree} {c : Context} {others : List Branch}

theorem isSymbol_suite {parent : Option NodeId} {b : Branch} (h : t.Grows parent b) :
    t.isSymbol b.id .suite = b.isSuite := by
  cases b with
  | leaf id token => simp [isSymbol, Branch.id, h.symbol?_leaf, Branch.isSuite]
  | node id symbol parts =>
    simp [isSymbol, Branch.id, h.symbol?_node, Branch.isSuite, beq_eq_decide]

/-- The header of a suite goes back to the suite before it. -/
theorem headerBefore_eq {parent : Option NodeId} {done run : List Branch}
    (hgrows : ∀ b ∈ done ++ run, t.Grows parent b) (hdone : ∀ b ∈ done.getLast?, b.isSuite = true)
    (hrun : ∀ b ∈ run, b.isSuite = false) :
    headerBefore t ((done ++ run).map Branch.id) = run.map Branch.id := by
  have hall : ∀ n ∈ (run.map Branch.id).reverse, (!t.isSymbol n .suite) = true := by
    intro n hn
    rw [List.mem_reverse] at hn
    obtain ⟨b, hb, rfl⟩ := List.mem_map.mp hn
    rw [isSymbol_suite (hgrows b (by simp [hb])), hrun b hb]
    rfl
  have hstop : (done.map Branch.id).reverse.takeWhile (fun n => !t.isSymbol n .suite) = [] := by
    rcases List.eq_nil_or_concat done with rfl | ⟨init, last, rfl⟩
    · rfl
    · have hlast : t.isSymbol last.id .suite = true := by
        rw [isSymbol_suite (hgrows last (by simp))]
        exact hdone last (by simp)
      simp [hlast]
  rw [headerBefore, List.map_append, List.reverse_append, List.takeWhile_append_of_pos hall, hstop,
    List.append_nil, List.reverse_reverse]

def leadOf (before : List Branch) : List Branch := (before.getLast?.filter Branch.isAsync).toList

theorem leadOf_eq_nil {before : List Branch} (h : ∀ b ∈ before.getLast?, b.isAsync = false) :
    leadOf before = [] := by
  unfold leadOf
  cases hlast : before.getLast? with
  | none => rfl
  | some b => simp [Option.filter, h b hlast]

theorem leadOf_concat {before : List Branch} {k : NodeId} {key : Leaf} (h : key.kind = .async) :
    leadOf (before ++ [.leaf k key]) = [.leaf k key] := by
  simp [leadOf, Option.filter, Branch.isAsync, h]

theorem isToken_async {parent : Option NodeId} {b : Branch} (h : t.Grows parent b) :
    t.isToken b.id .async = b.isAsync := by
  cases b with
  | leaf id token => simp [isToken, kind?, Branch.id, h.leaf?_leaf, Branch.isAsync, beq_eq_decide]
  | node id symbol parts => simp [isToken, kind?, Branch.id, h.leaf?_node, Branch.isAsync]

theorem suiteHeader_eq {g f : Frame} {above : Context} {x : Branch} {done header : List Branch}
    (h : t.Holds (Context.fill (g :: f :: above) [x] ++ others))
    (hbefore : g.before = done ++ header) (hdone : ∀ b ∈ done.getLast?, b.isSuite = true)
    (hheader : ∀ b ∈ header, b.isSuite = false) (hne : header ≠ []) (newline : NodeId) :
    suiteHeader t x.id newline = .ok ((leadOf f.before ++ header).map Branch.id) := by
  have hparent : t.parent? x.id = some g.id := h.parent? (by simp)
  have howner : t.Holds (Context.fill (f :: above)
      [.node g.id g.symbol (g.before ++ [x] ++ g.after)] ++ others) := h
  have hgrows : ∀ b ∈ done ++ header, t.Grows (some g.id) b := by
    intro b hb
    refine (howner.run_grows _ (List.mem_singleton_self _)).part ?_
    rw [hbefore, List.append_assoc]
    exact List.mem_append_left _ hb
  have hprev : t.prevSibling? g.id = f.before.getLast?.map Branch.id := howner.prevSibling?
  obtain ⟨head, rest, rfl⟩ := List.exists_cons_of_ne_nil hne
  simp only [suiteHeader, hparent, h.siblings?, hbefore, headerBefore_eq hgrows hdone hheader, hprev,
    List.map_cons]
  rw [leadOf]
  cases hlast : f.before.getLast? with
  | none => rfl
  | some b =>
    have hb : t.Grows (some f.id) b :=
      (holds_fill.mp howner).2.1.2.1.2.1 b
        (List.mem_append_left _ (List.mem_of_getLast? hlast))
    have hasync := isToken_async hb
    cases hkind : b.isAsync <;> simp [hasync, hkind, Option.filter]

/-- The newline at the start of a suite decides about the header in front of it. -/
theorem logicalLine_suite {s g f : Frame} {above : Context} {x : Branch} {done header : List Branch}
    (h : t.Holds (Context.fill (s :: g :: f :: above) [x] ++ others)) (hs : s.symbol = .suite)
    (hrooted : Context.Rooted (f :: above)) (hbefore : g.before = done ++ header)
    (hdone : ∀ b ∈ done.getLast?, b.isSuite = true) (hheader : ∀ b ∈ header, b.isSuite = false)
    (hne : header ≠ []) :
    logicalLine keep t x.id =
      collapseHeader keep t (.ok ((leadOf f.before ++ header).map Branch.id)) := by
  have hattached : t.isAttached x.id = true :=
    h.isAttached ((hrooted.cons g).cons s) (by simp [Branch.idsOfAll, Branch.id_mem_ids])
  have hparent : t.parent? x.id = some s.id := h.parent? (by simp)
  have hsymbol : t.symbol? s.id = some .suite := hs ▸ h.symbol?_parent
  have hsuite : suiteHeader t s.id x.id = .ok ((leadOf f.before ++ header).map Branch.id) :=
    suiteHeader_eq (x := .node s.id s.symbol (s.before ++ [x] ++ s.after)) h hbefore hdone hheader
      hne x.id
  simp only [logicalLine, hattached, hparent, hsymbol, hsuite, Bool.not_true, Bool.false_eq_true,
    if_false]

theorem logicalLine_match {s : Frame} {above : Context} {x : Branch}
    (h : t.Holds (Context.fill (s :: above) [x] ++ others)) (hs : s.symbol = .matchStmt)
    (hrooted : Context.Rooted (s :: above)) (hne : s.before ≠ []) :
    logicalLine keep t x.id = collapseHeader keep t (.ok (s.before.map Branch.id)) := by
  have hattached : t.isAttached x.id = true :=
    h.isAttached hrooted (by simp [Branch.idsOfAll, Branch.id_mem_ids])
  have hparent : t.parent? x.id = some s.id := h.parent? (by simp)
  have hsymbol : t.symbol? s.id = some .matchStmt := hs ▸ h.symbol?_parent
  obtain ⟨head, rest, hcons⟩ := List.exists_cons_of_ne_nil hne
  have hheader : matchHeader t s.id x.id = .ok (s.before.map Branch.id) := by
    rw [matchHeader, h.takeWhile_children, hcons]
    rfl
  simp only [logicalLine, hattached, hparent, hsymbol, hheader, Bool.not_true, Bool.false_eq_true,
    if_false]

theorem turns_header {f : Frame} {above : Context} {header : List Branch} {n : NodeId}
    (h : t.Holds (Context.fill (f :: above) header ++ others))
    (hstep : logicalLine keep t n = collapseHeader keep t (.ok (header.map Branch.id)))
    (hne : header ≠ []) (hfull : ∀ b ∈ header, b.shape.Full) :
    Turns (logicalLine keep) t [n] (f :: above) others fun run => run ≠ [] ∧
      (∀ b ∈ run, b.shape.Full) ∧
      Branch.tokensOfAll run = sealRun keep (Branch.tokensOfAll header) := by
  rw [collapseHeader, misses_eq_clear keep (fun b hb => ⟨_, h.run_grows b hb⟩) h.run_nodup hfull]
    at hstep
  unfold sealRun Branch.tokensOfAll
  by_cases hclear : clear keep ((Branch.leavesOfAll header).map Prod.snd) = true
  · obtain ⟨head, rest, rfl⟩ := List.exists_cons_of_ne_nil hne
    have hhead := hfull head (by simp)
    obtain ⟨x, xs, hx⟩ := List.exists_cons_of_ne_nil (Branch.leaves_ne_nil_of_full hhead)
    have htokens : (Branch.leavesOfAll (head :: rest)).map Prod.snd =
        x.2 :: (xs ++ Branch.leavesOfAll rest).map Prod.snd := by
      simp [Branch.leavesOfAll, hx]
    obtain ⟨u, hok, -, hu, -⟩ := collapseRun_siblings h hhead htokens
    rw [if_pos hclear, hok] at hstep
    rw [if_pos hclear, htokens]
    refine Turns.once hstep hu ⟨by simp, ?_, rfl⟩
    intro b hb
    rw [List.mem_singleton.mp hb]
    exact .leaf _
  · rw [if_neg hclear] at hstep ⊢
    exact (Turns.stay h ⟨hne, hfull, rfl⟩).skip hstep

theorem turns_keyword {f : Frame} {above : Context} {key owner : NodeId} {token : Leaf}
    {symbol : Symbol} {pre header post : List Branch} {n : NodeId}
    (h : t.Holds (Context.fill (f :: above)
      [.leaf key token, .node owner symbol (pre ++ header ++ post)] ++ others))
    (hstep : logicalLine keep t n = collapseHeader keep t (.ok (key :: header.map Branch.id)))
    (hfull : ∀ b ∈ header, b.shape.Full) :
    Turns (logicalLine keep) t [n] (f :: above) others fun run =>
      if clear keep (token :: Branch.tokensOfAll header) then
        ∃ m leaf, run = [.leaf m leaf, .node owner symbol (pre ++ post)] ∧ leaf.kind = .verbatim ∧
          [leaf] = fold (token :: Branch.tokensOfAll header)
      else run = [.leaf key token, .node owner symbol (pre ++ header ++ post)] := by
  rw [collapseHeader, misses_keyword keep h hfull] at hstep
  unfold Branch.tokensOfAll
  by_cases hclear : clear keep (token :: (Branch.leavesOfAll header).map Prod.snd) = true
  · obtain ⟨u, hok, -, hu, -⟩ := collapseRun_keyword h
    rw [if_pos hclear, hok] at hstep
    refine Turns.once hstep hu ?_
    rw [if_pos hclear]
    exact ⟨_, _, rfl, rfl, rfl⟩
  · rw [if_neg hclear] at hstep
    refine (Turns.stay h ?_).skip hstep
    rw [if_neg hclear]

end Headers

end Collapse

end LineScope
