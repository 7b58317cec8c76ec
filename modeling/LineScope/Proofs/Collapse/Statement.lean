import LineScope.Collapse.Statements
import LineScope.Proofs.Collapse.Sealing
import LineScope.Proofs.Collapse.Trimming

/-!
# What one statement does

The statement pass visits the simple statements and suites that are not inside another. For each of
the two, the region that it decides about: all that ends with the newline of a simple statement, and
the block of a suite with the `async` in front of it.
-/
namespace LineScope

namespace Branch

mutual

/-- The simple statements and suites of a branch that are not inside another. -/
def statementIds : Branch → List NodeId
  | .leaf _ _ => []
  | .node id symbol parts =>
    if symbol = .simpleStmt ∨ symbol = .suite then [id] else statementIdsOfAll parts

def statementIdsOfAll : List Branch → List NodeId
  | [] => []
  | b :: rest => b.statementIds ++ statementIdsOfAll rest

end

theorem statementIdsOfAll_eq_flatMap (bs : List Branch) :
    statementIdsOfAll bs = bs.flatMap statementIds := by
  induction bs with
  | nil => rfl
  | cons b rest ih => simp [statementIdsOfAll, ih]

@[simp] theorem statementIdsOfAll_append (bs cs : List Branch) :
    statementIdsOfAll (bs ++ cs) = statementIdsOfAll bs ++ statementIdsOfAll cs := by
  simp [statementIdsOfAll_eq_flatMap]

theorem statementIds_plain {b : Branch} (h : b.shape.Plain) : b.statementIds = [] := by
  induction b with
  | leaf id token => rfl
  | node id symbol parts ih =>
    rw [shape, shapesOfAll_eq_map] at h
    cases h with
    | node nonempty plain =>
      rw [statementIds, if_neg (by simp), statementIdsOfAll_eq_flatMap, List.flatMap_eq_nil_iff]
      exact fun b hb => ih b hb (plain _ (List.mem_map_of_mem hb))

end Branch

namespace Collapse

open LineScope.Tree Grammar

theorem statementsBelow_eq {t : Tree} {bs : List Branch}
    (h : ∀ b ∈ bs, ∃ parent, t.Grows parent b) {steps : Nat}
    (hsteps : (Branch.idsOfAll bs).length ≤ steps) :
    statementsBelow t steps (bs.map Branch.id) = Branch.statementIdsOfAll bs := by
  induction steps generalizing bs with
  | zero =>
    cases bs with
    | nil => rfl
    | cons b rest =>
      have hne := List.length_pos_iff.mpr b.ids_ne_nil
      rw [Branch.idsOfAll, List.length_append] at hsteps
      omega
  | succ steps ih =>
    cases bs with
    | nil => rfl
    | cons b rest =>
      rw [List.forall_mem_cons] at h
      obtain ⟨⟨parent, hb⟩, hrest⟩ := h
      have hne := List.length_pos_iff.mpr b.ids_ne_nil
      rw [Branch.idsOfAll, List.length_append] at hsteps
      have hnext := ih hrest (by omega)
      cases b with
      | leaf id token =>
        simp only [List.map_cons, Branch.id, statementsBelow, hb.symbol?_leaf, hnext]
        rfl
      | node id symbol parts =>
        have hinside : statementsBelow t steps (parts.map Branch.id ++ rest.map Branch.id) =
            Branch.statementIdsOfAll (parts ++ rest) := by
          rw [← List.map_append]
          refine ih ?_ ?_
          · intro c hc
            rcases List.mem_append.mp hc with hc | hc
            · exact ⟨_, hb.part hc⟩
            · exact hrest c hc
          · rw [Branch.idsOfAll_append, List.length_append]
            simp only [Branch.ids, List.length_cons] at hsteps
            omega
        simp only [List.map_cons, Branch.id, statementsBelow, hb.symbol?_node, hb.children_node]
        rw [Branch.statementIdsOfAll, Branch.statementIds]
        by_cases hsimple : symbol = .simpleStmt
        · simp [hsimple, hnext]
        · by_cases hsuite : symbol = .suite
          · simp [hsuite, hnext]
          · rw [if_neg (by simp [hsimple, hsuite]), hinside, Branch.statementIdsOfAll_append]
            split
            · next heq => exact absurd (Option.some.inj heq) hsimple
            · next heq => exact absurd (Option.some.inj heq) hsuite
            · rfl
            · next heq => cases heq

theorem statements_eq {t : Tree} {root : Branch} {others : List Branch}
    (h : t.Holds (root :: others)) (hid : root.id = rootId) : statements t = root.statementIds := by
  have hgrows := h.grows root (by simp)
  have hnodup : root.ids.Nodup := by
    have hall := h.nodup
    rw [Branch.idsOfAll, List.nodup_append] at hall
    exact hall.1
  have hall := @statementsBelow_eq t [root] (by simpa using ⟨none, hgrows⟩) t.size
    (by simpa [Branch.idsOfAll] using hgrows.length_ids_le_size hnodup)
  rw [statements, ← hid]
  simpa [Branch.statementIdsOfAll] using hall

theorem IsHeader.statementIds {run : List Branch} (h : IsHeader (run.map Branch.shape)) :
    Branch.statementIdsOfAll run = [] := by
  rw [Branch.statementIdsOfAll_eq_flatMap, List.flatMap_eq_nil_iff]
  exact fun b hb => Branch.statementIds_plain (h.2 _ (List.mem_map_of_mem hb))

section Lines

variable {keep : LineSet} {t : Tree} {c above : Context} {f : Frame} {others : List Branch}
  {parts : List Shape} {newline : Leaf} {b : Branch}

theorem exists_simple (h : b.shape = (Line.simple parts newline).shape) :
    ∃ id n hs, b = .node id .simpleStmt (hs ++ [.leaf n newline]) ∧ hs.map Branch.shape = parts := by
  obtain ⟨id, bs, rfl, hbs⟩ := Branch.exists_node h
  obtain ⟨hs, last, rfl, hhs, hlast⟩ := List.map_eq_append_iff.mp hbs
  obtain ⟨x, rfl, hx⟩ := List.map_eq_singleton_iff.mp hlast
  obtain ⟨n, rfl⟩ := Branch.exists_leaf hx
  exact ⟨id, n, hs, rfl, hhs⟩

/-- A simple statement decides about the highest node that ends with its newline. -/
theorem statement_line (h : t.Holds (c.fill [b] ++ others))
    (hshape : b.shape = (Line.simple parts newline).shape)
    (hwf : (Line.simple parts newline).Wf) :
    statement keep t b.id =
      if misses t keep [(closing c b).2.id] then collapseNode t (closing c b).2.id
      else ⟨t, .ok false⟩ := by
  have hfull : b.shape.Full := hshape ▸ full_line hwf
  obtain ⟨id, n, hs, rfl, rfl⟩ := exists_simple hshape
  have hends : (Branch.node id .simpleStmt (hs ++ [.leaf n newline])).Ends n newline :=
    .simple (IsHeader.ne_nil hwf.1)
  have hb := h.run_grows _ (List.mem_singleton_self _)
  have hnodup : (Branch.node id .simpleStmt (hs ++ [.leaf n newline])).ids.Nodup := by
    simpa [Branch.idsOfAll] using h.run_nodup
  have hlast : t.lastLeaf? id = some n := by
    have heq := hb.lastLeaf? hnodup hfull
    rw [hends.getLast?_leaves] at heq
    exact heq
  have hkind : t.isToken n .newline = true := by
    have hleaf := hb.leaf?_of_mem (List.mem_of_getLast? hends.getLast?_leaves)
    simp [isToken, kind?, hleaf, hwf.2]
  have hsymbol : t.isSymbol id .simpleStmt = true := by
    simp [isSymbol, hb.symbol?_node]
  have htop := furthestEndingWith_of_ends h hends
  change statement keep t id = _
  simp only [statement, hsymbol, simpleStatement, hlast, hkind, htop, if_true]

theorem turns_decision {step : Tree → NodeId → Outcome Bool} {n : NodeId}
    (h : t.Holds (Context.fill (f :: above) [b] ++ others)) (hfull : b.shape.Full)
    {y : NodeId × Leaf} {ys : List (NodeId × Leaf)} (hleaves : b.leaves = y :: ys) (hys : ys ≠ [])
    (hstep : step t n = if misses t keep [b.id] then collapseNode t b.id else ⟨t, .ok false⟩) :
    Turns step t [n] (f :: above) others fun run =>
      match sealed? keep b.shape.tokens with
      | some leaf => ∃ m, run = [.leaf m leaf]
      | none => run = [b] := by
  have htokens : b.shape.tokens = y.2 :: ys.map Prod.snd := by
    rw [Branch.tokens_shape, hleaves, List.map_cons]
  rw [misses_node keep h hfull, ← Branch.tokens_shape] at hstep
  by_cases hclear : clear keep b.shape.tokens = true
  · obtain ⟨u, hok, -, hu, -⟩ := collapseNode_place h hfull hleaves hys
    rw [if_pos hclear, hok] at hstep
    have hloose : u.Holds (Context.fill (f :: above) [.leaf t.size (verbatim y.2
        (Leaf.render (y.2.bare :: ys.map Prod.snd)))] ++ ([b.bare] ++ others)) := hu
    refine Turns.once hstep hloose ?_
    rw [htokens] at hclear ⊢
    rw [sealed?, if_pos hclear]
    exact ⟨_, rfl⟩
  · rw [if_neg hclear] at hstep
    refine (Turns.stay h ?_).skip hstep
    rw [htokens] at hclear ⊢
    rw [sealed?, if_neg hclear]

theorem turns_line (h : t.Holds (Context.fill (f :: above) [b] ++ others)) (hafter : f.after ≠ [])
    {line : Line} (hshape : b.shape = line.shape) (hwf : line.Wf)
    (hfresh : ∀ x ∈ line.shape.tokens, x.kind ≠ .verbatim) :
    Turns (statement keep) t b.statementIds (f :: above) others fun run =>
      ∃ x : Branch, run = [x] ∧ x.shape = (sealLine keep line).shape := by
  cases line with
  | verbatim leaf => exact absurd hwf (hfresh leaf (by simp [Line.shape, Shape.tokens]))
  | simple parts newline =>
    have hfull : b.shape.Full := hshape ▸ full_line hwf
    have hstep := @statement_line keep t _ others parts newline b h hshape hwf
    rw [closing_of_ne_nil b hafter] at hstep
    obtain ⟨id, n, hs, rfl, rfl⟩ := exists_simple hshape
    have hends : (Branch.node id .simpleStmt (hs ++ [.leaf n newline])).Ends n newline :=
      .simple (IsHeader.ne_nil hwf.1)
    obtain ⟨y, ys, hleaves, hys⟩ := hends.exists_cons hfull
    rw [Branch.statementIds, if_pos (.inl rfl)]
    refine (turns_decision h hfull hleaves hys hstep).mono fun run hrun => ?_
    rw [sealLine, ← hshape]
    cases hsealed : sealed? keep
        (Branch.node id .simpleStmt (hs ++ [.leaf n newline])).shape.tokens with
    | none =>
      rw [hsealed] at hrun
      exact ⟨_, hrun, hshape⟩
    | some leaf =>
      rw [hsealed] at hrun
      obtain ⟨m, rfl⟩ := hrun
      exact ⟨_, rfl, rfl⟩

theorem turns_lines {lines : List Line} {bs : List Branch}
    (h : t.Holds (Context.fill (f :: above) bs ++ others)) (hafter : f.after ≠ [])
    (hshape : bs.map Branch.shape = lines.map Line.shape) (hwf : ∀ line ∈ lines, line.Wf)
    (hfresh : ∀ x ∈ Branch.tokensOfAll bs, x.kind ≠ .verbatim) :
    Turns (statement keep) t (Branch.statementIdsOfAll bs) (f :: above) others fun run =>
      run.map Branch.shape = (lines.map (sealLine keep)).map Line.shape := by
  induction lines generalizing t f bs others with
  | nil =>
    rw [List.map_nil, List.map_eq_nil_iff] at hshape
    subst hshape
    exact Turns.stay h rfl
  | cons line rest ih =>
    obtain ⟨b, bs, rfl, hb, hbs⟩ := List.map_eq_cons_iff.mp hshape
    rw [List.forall_mem_cons] at hwf
    rw [Branch.tokensOfAll_cons] at hfresh
    have hfirst : t.Holds (Context.fill (⟨f.id, f.symbol, f.before, bs ++ f.after⟩ :: above) [b] ++
        others) := by
      simpa [Context.fill] using h
    have hturns := @turns_line keep t _ _ _ b hfirst (by simp [hafter]) line hb hwf.1 (by
      rw [← hb]
      exact fun x hx => hfresh x (List.mem_append_left _ hx))
    rw [Branch.statementIdsOfAll]
    refine hturns.andThen ?_
    rintro u run others' hu ⟨x, rfl, hx⟩
    have hnext : u.Holds (Context.fill (⟨f.id, f.symbol, f.before ++ [x], f.after⟩ :: above) bs ++
        others') := by
      simpa [Context.fill] using hu
    refine (ih hnext hafter hbs hwf.2 fun y hy => hfresh y (List.mem_append_right _ hy)).through ?_
    intro run hrun
    exact ⟨x :: run, by simp [Context.fill], by simp [hx, hrun]⟩

theorem turns_initLines {lines : List Line} {bs : List Branch}
    (h : t.Holds (Context.fill (f :: above) bs ++ others))
    (hshape : bs.map Branch.shape = lines.map Line.shape) (hwf : ∀ line ∈ lines, line.Wf)
    (hfresh : ∀ x ∈ Branch.tokensOfAll bs, x.kind ≠ .verbatim) :
    Turns (statement keep) t (Branch.statementIdsOfAll bs.dropLast) (f :: above) others fun run =>
      run.map Branch.shape = (sealInit keep lines).map Line.shape ∧ run.getLast? = bs.getLast? := by
  rcases List.eq_nil_or_concat lines with rfl | ⟨init, last, rfl⟩
  · rw [List.map_nil, List.map_eq_nil_iff] at hshape
    subst hshape
    exact Turns.stay h ⟨rfl, rfl⟩
  · rw [List.concat_eq_append, List.map_append] at hshape
    obtain ⟨bs, rest, rfl, hbs, hrest⟩ := List.map_eq_append_iff.mp hshape
    obtain ⟨b, rfl, hb⟩ := List.map_eq_singleton_iff.mp hrest
    have hplace : t.Holds (Context.fill (⟨f.id, f.symbol, f.before, b :: f.after⟩ :: above) bs ++
        others) := by
      simpa [Context.fill] using h
    have hturns := @turns_lines keep t _ _ _ _ _ hplace (by simp) hbs
      (fun line hline => hwf line (by simp [hline]))
      (fun x hx => hfresh x (by simp [hx]))
    rw [List.dropLast_concat, List.concat_eq_append, sealInit_concat]
    refine hturns.through fun run hrun => ?_
    exact ⟨run ++ [b], by simp [Context.fill], by simp [hrun, hb], by simp⟩

end Lines

structure Leader where
  id : NodeId
  wrapper : Symbol
  k : NodeId
  key : Leaf

section Suites

def leaderFrames : Option Leader → Context
  | none => []
  | some l => [⟨l.id, l.wrapper, [.leaf l.k l.key], []⟩]

def ledBlock (q : Option Leader) (block : Branch) : Branch :=
  match q with
  | none => block
  | some l => .node l.id l.wrapper [.leaf l.k l.key, block]

def leaderTokens (q : Option Leader) : List Leaf := q.toList.map Leader.key

theorem fill_ledBlock (q : Option Leader) (c : Context) (block : Branch) :
    Context.fill (leaderFrames q ++ c) [block] = c.fill [ledBlock q block] := by
  cases q <;> simp [leaderFrames, ledBlock, Context.fill]

theorem tokens_ledBlock (q : Option Leader) (block : Branch) :
    (ledBlock q block).shape.tokens = leaderTokens q ++ block.shape.tokens := by
  cases q <;> simp [ledBlock, leaderTokens, Branch.shape, Shape.tokens, Shape.tokensOfAll]

variable {keep : LineSet} {t : Tree} {c : Context} {q : Option Leader} {owner : NodeId}
  {symbol : Symbol} {before after others : List Branch} {s : Branch}

theorem containsVerbatim_eq_false_iff {parent : Option NodeId} {b : Branch} (h : t.Grows parent b)
    (hnodup : b.ids.Nodup) :
    containsVerbatim t b.id = false ↔ ∀ x ∈ b.shape.tokens, x.kind ≠ .verbatim := by
  have htoken (x : NodeId × Leaf) (hx : x ∈ b.leaves) :
      t.isToken x.1 .verbatim = true ↔ x.2.kind = .verbatim := by
    simp [isToken, kind?, h.leaf?_of_mem (show (x.1, x.2) ∈ b.leaves from hx)]
  rw [containsVerbatim, h.leaves_eq hnodup, List.any_eq_false, Branch.tokens_shape,
    List.forall_mem_map, List.forall_mem_map]
  exact forall₂_congr fun x hx => not_congr (htoken x hx)

theorem statement_suite
    (h : t.Holds (c.fill [ledBlock q (.node owner symbol (before ++ s :: after))] ++ others))
    (hq : ∀ l ∈ q, l.key.kind = .async) (hunled : q = none → ∀ f ∈ c.head?, Unled f.before)
    (hs : s.isSuite = true) (hfresh : ∀ x ∈ s.shape.tokens, x.kind ≠ .verbatim) :
    statement keep t s.id =
      if misses t keep [(ledBlock q (.node owner symbol (before ++ s :: after))).id] then
        collapseNode t (ledBlock q (.node owner symbol (before ++ s :: after))).id
      else ⟨t, .ok false⟩ := by
  rw [← fill_ledBlock] at h
  have hplace : t.Holds (Context.fill (⟨owner, symbol, before, after⟩ :: (leaderFrames q ++ c)) [s] ++
      others) := by
    simpa [Context.fill] using h
  have hgrows := hplace.run_grows s (by simp)
  have hnodup : s.ids.Nodup := by simpa [Branch.idsOfAll] using hplace.run_nodup
  have hsymbol : t.isSymbol s.id .simpleStmt = false := by
    cases s with
    | leaf id token => simp [Branch.isSuite] at hs
    | node id sym parts =>
      have hsym : sym = .suite := by simpa [Branch.isSuite] using hs
      simp [isSymbol, Branch.id, hgrows.symbol?_node, hsym]
  have hparent : t.parent? s.id = some owner := hplace.parent? (by simp)
  have howner : suiteOwner? t s.id =
      some (ledBlock q (.node owner symbol (before ++ s :: after))).id := by
    cases q with
    | none =>
      have hnone : followsAsync t owner = false := by
        cases c with
        | nil =>
          have htop : t.parent? owner = none := h.parent? (List.mem_singleton_self _)
          simp [followsAsync, prevSibling?, siblings?, htop]
        | cons f above =>
          have hprev : t.prevSibling? owner = f.before.getLast?.map Branch.id :=
            h.prevSibling?
          rw [followsAsync, hprev]
          cases hlast : f.before.getLast? with
          | none => rfl
          | some b =>
            have hb : t.Grows (some f.id) b := h.surrounds.2.1 b
              (List.mem_append_left _ (List.mem_of_getLast? hlast))
            simpa [isToken_async hb] using hunled rfl f rfl b hlast
      change suiteOwner? t s.id = some owner
      simp only [suiteOwner?, hparent, hnone, Bool.false_eq_true, if_false]
    | some l =>
      have hprev : t.prevSibling? owner = some l.k := h.prevSibling?
      have hkey : t.Grows (some l.id) (.leaf l.k l.key) := h.surrounds.2.1 _ (by simp)
      have hasync : followsAsync t owner = true := by
        simp [followsAsync, hprev, isToken, kind?, hkey.leaf?_leaf, hq l rfl]
      have hwrapper : t.parent? owner = some l.id := h.parent? (List.mem_singleton_self _)
      change suiteOwner? t s.id = some l.id
      simp only [suiteOwner?, hparent, hasync, if_true, hwrapper]
  simp only [statement, hsymbol, suite, (containsVerbatim_eq_false_iff hgrows hnodup).mpr hfresh, howner,
    Bool.false_eq_true, if_false]

end Suites

end Collapse

end LineScope
