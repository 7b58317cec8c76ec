import LineScope.Proofs.Tree.Reachable

/-!
# Collapsing fails before it changes anything

A step of a pass does nothing, replaces one run of nodes, or fails with the store as it was. The
reason is that a replacement, once begun, goes through: the place of the first node of a run is
still there when all the nodes are gone, since the others stand behind the first or elsewhere.
`Collapse.Settles` lists what a step can do, and the passes are runs of such steps.
-/
namespace LineScope

/-- The store breaks what collapsing relies on, as opposed to an edit that is refused. -/
def CollapseError.isBreach : CollapseError → Bool
  | .missingNewline _ _ | .emptySpan _ | .singleLeaf _ | .emptyGroup _ _ => true
  | .edit _ => false

theorem Tree.leaf?_of_descend {t : Tree} {choose : List NodeId → Option NodeId} {steps : Nat}
    {n leaf : NodeId} (h : t.descend choose steps n = some leaf) :
    ∃ token, t.leaf? leaf = some token := by
  induction steps generalizing n with
  | zero => cases h
  | succ steps ih =>
    unfold descend at h
    split at h
    · obtain ⟨child, -, hchild⟩ := Option.bind_eq_some_iff.mp h
      exact ih hchild
    · next token hpayload =>
      obtain rfl := Option.some.inj h
      exact ⟨token, by simp [Tree.leaf?, hpayload]⟩
    · cases h

namespace Collapse

open LineScope.Tree

section Replacing

variable {t : Tree} {p : NodeId} {symbol : Symbol} {before after : List NodeId}

/-- Detaching nodes that do not stand before a place leaves the place where it is. -/
theorem detachAll_keeps_place (h : t.WellFormed)
    (hp : t.payload? p = some (.interior symbol (before ++ after))) {ns : List NodeId}
    (hns : ∀ n ∈ ns, n ∉ before) :
    (detachAll t ns).2.WellFormed ∧
      ∃ after', (detachAll t ns).2.payload? p = some (.interior symbol (before ++ after')) := by
  induction ns generalizing t after with
  | nil => exact ⟨h, after, hp⟩
  | cons n rest ih =>
    rw [List.forall_mem_cons] at hns
    rw [detachAll]
    split
    · exact ih h hp hns.2
    · next index u hremove =>
      obtain ⟨q, hq, -⟩ := remove?_eq_some hremove
      have hmem := h.mem_children.mpr hq
      have hkept : ∃ after', u.payload? p = some (.interior symbol (before ++ after')) := by
        by_cases hqp : q = p
        · subst hqp
          rw [children_of_payload? hp, List.mem_append] at hmem
          obtain ⟨left, right, rfl⟩ := List.append_of_mem (hmem.resolve_left hns.1)
          rw [← List.append_assoc] at hp
          obtain ⟨v, hv, -, -, -, hpayload⟩ := h.toLinked.remove? hp
          rw [hv, Option.some.injEq, Prod.mk.injEq] at hremove
          exact ⟨left ++ right, by rw [← hremove.2, hpayload, if_pos rfl, List.append_assoc]⟩
        · obtain ⟨symbol', hpayload⟩ := exists_interior_of_mem_children hmem
          obtain ⟨left, right, hsplit⟩ := List.append_of_mem hmem
          rw [hsplit] at hpayload
          obtain ⟨v, hv, -, -, -, hothers⟩ := h.toLinked.remove? hpayload
          rw [hv, Option.some.injEq, Prod.mk.injEq] at hremove
          exact ⟨after, by rw [← hremove.2, hothers, if_neg (Ne.symm hqp), hp]⟩
      obtain ⟨after', hafter⟩ := hkept
      exact ih (h.remove? hremove) hafter hns.2

/-- A replacement goes through if no node of the run stands before the first. -/
theorem replaceRun_ok (h : t.WellFormed) {head first : NodeId} {rest : List NodeId}
    (hp : t.payload? p = some (.interior symbol (before ++ head :: after)))
    (hrest : ∀ n ∈ rest, n ∉ before) {leaf : Leaf} (hfirst : t.leaf? first = some leaf) :
    ∃ u, replaceRun t p head rest first = ⟨u, .ok true⟩ := by
  set bare := t.mapLeaf first fun leaf => { leaf with trivia := "" } with hbare
  have hwf : bare.WellFormed := h.mapLeaf _
  have hbarep : bare.payload? p = some (.interior symbol (before ++ head :: after)) := by
    have hinterior : t.leaf? p = none := by rw [Tree.leaf?, hp]
    rw [hbare, payload?_mapLeaf, hinterior, hp, Option.elim_none, ite_self]
  obtain ⟨mid, hmid, -, -, -, hpayload⟩ := hwf.toLinked.remove? hbarep
  have hmidp : mid.payload? p = some (.interior symbol (before ++ after)) := by
    rw [hpayload, if_pos rfl]
  obtain ⟨hcut, after', hcutp⟩ := detachAll_keeps_place (hwf.remove? hmid) hmidp hrest
  have hinsert (token : Leaf) := @Linked.insertChild_alloc (detachAll mid rest).2 (.token token) p
    symbol before after' hcut.toLinked hcutp hcut.root_lt_size
  have hdetach : detachAll bare (head :: rest) = (some before.length, (detachAll mid rest).2) := by
    rw [detachAll, hmid]
  simp only [replaceRun, hfirst, ← hbare, hdetach, hinsert]
  exact ⟨_, rfl⟩

end Replacing

/-- The runs that a pass hands over to be replaced: a node, or the header of a match or a suite. -/
inductive HandedOver (t : Tree) : NodeId → List NodeId → Prop
  | node (n : NodeId) : HandedOver t n []
  | matchHeader {owner newline head : NodeId} {rest : List NodeId}
      (header : matchHeader t owner newline = .ok (head :: rest)) : HandedOver t head rest
  | suiteHeader {suite newline head : NodeId} {rest : List NodeId}
      (header : suiteHeader t suite newline = .ok (head :: rest)) : HandedOver t head rest

section Handing

variable {t : Tree} {head parent : NodeId} {rest : List NodeId}

theorem exists_headerBefore_append (t : Tree) (before : List NodeId) :
    ∃ front, before = front ++ headerBefore t before := by
  refine ⟨(before.reverse.dropWhile fun n => !t.isSymbol n .suite).reverse, ?_⟩
  rw [headerBefore, ← List.reverse_append, List.takeWhile_append_dropWhile, List.reverse_reverse]

theorem siblings?_eq_some {n : NodeId} {before after : List NodeId}
    (h : t.siblings? n = some (before, after)) :
    ∃ p, t.parent? n = some p ∧ t.children p = before ++ n :: after := by
  simp only [siblings?, Option.bind_eq_bind, Option.bind_eq_some_iff, Option.pure_def,
    Option.some.injEq, Prod.mk.injEq] at h
  obtain ⟨p, hp, index, hindex, rfl, rfl⟩ := h
  obtain ⟨hlt, hat, -⟩ := List.findIdx?_eq_some_iff_getElem.mp hindex
  refine ⟨p, hp, ?_⟩
  rw [← eq_of_beq hat, ← List.drop_eq_getElem_cons hlt, List.take_append_drop]

theorem prevSibling?_eq_some {n m : NodeId} (h : t.prevSibling? n = some m) :
    ∃ p before after, t.parent? n = some p ∧ t.children p = before ++ m :: n :: after := by
  obtain ⟨⟨left, right⟩, hsiblings, hlast⟩ := Option.bind_eq_some_iff.mp h
  obtain ⟨p, hp, hchildren⟩ := siblings?_eq_some hsiblings
  obtain ⟨before, rfl⟩ := List.getLast?_eq_some_iff.mp hlast
  exact ⟨p, before, right, hp, by rw [hchildren]; simp⟩

/-- The header of a suite is a stretch of its siblings, with the node before its owner in front if
that is an `async`. -/
theorem suiteHeader_eq_ok {suite newline : NodeId} {run : List NodeId}
    (h : suiteHeader t suite newline = .ok run) :
    ∃ owner front header after, t.parent? suite = some owner ∧
      t.children owner = front ++ header ++ suite :: after ∧ header ≠ [] ∧
      (run = header ∨ ∃ prev, t.prevSibling? owner = some prev ∧ run = prev :: header) := by
  unfold suiteHeader at h
  split at h
  · next owner before after howner hsiblings =>
    obtain ⟨p, hp, hchildren⟩ := siblings?_eq_some hsiblings
    obtain rfl : owner = p := Option.some.inj (howner.symm.trans hp)
    obtain ⟨front, hfront⟩ := exists_headerBefore_append t before
    rw [hfront] at hchildren
    split at h
    · cases h
    · next hprev hne =>
      refine ⟨owner, front, headerBefore t before, after, howner, hchildren, hne, ?_⟩
      split at h
      · exact .inr ⟨_, hprev, (Except.ok.inj h).symm⟩
      · exact .inl (Except.ok.inj h).symm
    · next hprev hne =>
      exact ⟨owner, front, headerBefore t before, after, howner, hchildren, hne,
        .inl (Except.ok.inj h).symm⟩
  · cases h

/-- The rest of a run stands behind its first node or below another parent. -/
theorem HandedOver.exists_place (hrun : HandedOver t head rest) (h : t.WellFormed)
    (hparent : t.parent? head = some parent) :
    ∃ symbol before after, t.payload? parent = some (.interior symbol (before ++ head :: after)) ∧
      ∀ n ∈ rest, n ∉ before := by
  obtain ⟨symbol, hpayload⟩ := exists_interior_of_mem_children (h.mem_children.mpr hparent)
  have hplace (before after : List NodeId) (hchildren : t.children parent = before ++ head :: after)
      (hrest : ∀ n ∈ rest, n ∉ before) : ∃ symbol before after,
        t.payload? parent = some (.interior symbol (before ++ head :: after)) ∧
          ∀ n ∈ rest, n ∉ before :=
    ⟨symbol, before, after, hchildren ▸ hpayload, hrest⟩
  cases hrun with
  | node n =>
    obtain ⟨before, after, hchildren⟩ := List.append_of_mem (h.mem_children.mpr hparent)
    exact hplace before after hchildren (by simp)
  | @matchHeader owner newline _ _ header =>
    unfold Collapse.matchHeader at header
    split at header
    · cases header
    · next hne =>
      rw [Except.ok.injEq] at header
      have hsplit := List.takeWhile_append_dropWhile (p := (· != newline)) (l := t.children owner)
      rw [header] at hsplit
      have howner : t.parent? head = some owner := h.mem_children.mp (by rw [← hsplit]; simp)
      obtain rfl : parent = owner := Option.some.inj (hparent.symm.trans howner)
      exact hplace [] _ hsplit.symm (by simp)
  | suiteHeader header =>
    obtain ⟨owner, front, run, after, howner, hchildren, hne, heq⟩ := suiteHeader_eq_ok header
    have hrun {n : NodeId} (hn : n ∈ run) : t.parent? n = some owner :=
      h.mem_children.mp (by rw [hchildren]; simp [hn])
    rcases heq with heq | ⟨prev, hprev, heq⟩
    · have hmine := @hrun head (by simp [← heq])
      obtain rfl : parent = owner := Option.some.inj (hparent.symm.trans hmine)
      have hnodup := h.nodup_children parent
      rw [hchildren, ← heq, List.append_assoc, List.nodup_append] at hnodup
      refine hplace front _ (by rw [hchildren, ← heq, List.append_assoc]; rfl) fun n hn hfront => ?_
      exact hnodup.2.2 n hfront n (by simp [hn]) rfl
    · obtain ⟨rfl, rfl⟩ := List.cons.inj heq
      obtain ⟨q, init, right, hq, hqchildren⟩ := prevSibling?_eq_some hprev
      have hmine : t.parent? head = some q := h.mem_children.mp (by rw [hqchildren]; simp)
      obtain rfl : parent = q := Option.some.inj (hparent.symm.trans hmine)
      refine hplace init (owner :: right) hqchildren fun n hn hinit => ?_
      have hup : t.parent? n = some parent := h.mem_children.mp (by rw [hqchildren]; simp [hinit])
      obtain rfl : parent = owner := Option.some.inj (hup.symm.trans (hrun hn))
      exact h.acyclic parent (.single hq)

theorem HandedOver.replaceRun_ok (hrun : HandedOver t head rest) (h : t.WellFormed)
    (hparent : t.parent? head = some parent) {first : NodeId} (hfirst : t.firstLeaf? head = some first) :
    ∃ u, replaceRun t parent head rest first = ⟨u, .ok true⟩ := by
  obtain ⟨symbol, before, after, hpayload, hrest⟩ := hrun.exists_place h hparent
  obtain ⟨leaf, hleaf⟩ := leaf?_of_descend hfirst
  exact Collapse.replaceRun_ok h hpayload hrest hleaf

end Handing

/-- One run of nodes has given way to a verbatim leaf. -/
def Replaces (t u : Tree) : Prop :=
  ∃ parent head rest first, HandedOver t head rest ∧
    replaceRun t parent head rest first = ⟨u, .ok true⟩

/-- What a step of a pass can do: nothing, one replacement, or fail before it. -/
inductive Settles (t : Tree) : Outcome Bool → Prop
  | stays : Settles t ⟨t, .ok false⟩
  | replaces {u : Tree} (run : Replaces t u) : Settles t ⟨u, .ok true⟩
  | fails {e : CollapseError} (breach : e.isBreach = true) : Settles t ⟨t, .error e⟩

section Steps

variable {t : Tree} {keep : LineSet}

theorem settles_replaceRun (h : t.WellFormed) {head parent first : NodeId} {rest : List NodeId}
    (hrun : HandedOver t head rest) (hparent : t.parent? head = some parent)
    (hfirst : t.firstLeaf? head = some first) : Settles t (replaceRun t parent head rest first) := by
  obtain ⟨u, hu⟩ := hrun.replaceRun_ok h hparent hfirst
  rw [hu]
  exact .replaces ⟨parent, head, rest, first, hrun, hu⟩

theorem settles_collapseNode (h : t.WellFormed) (n : NodeId) : Settles t (collapseNode t n) := by
  unfold collapseNode
  split
  · exact .stays
  · next parent hparent =>
    split
    · next first last hfirst hlast =>
      split
      · exact .fails rfl
      · exact settles_replaceRun h (.node n) hparent hfirst
    · exact .fails rfl

theorem settles_collapseRun (h : t.WellFormed) {run : List NodeId}
    (hrun : ∀ head rest, run = head :: rest → HandedOver t head rest) :
    Settles t (collapseRun t run) := by
  cases run with
  | nil => exact .stays
  | cons head rest =>
    rw [collapseRun]
    split
    · exact .stays
    · next parent hparent =>
      split
      · exact .fails rfl
      · next first hfirst => exact settles_replaceRun h (hrun head rest rfl) hparent hfirst

theorem settles_region (h : t.WellFormed) (n : NodeId) :
    Settles t (if misses t keep [n] then collapseNode t n else ⟨t, .ok false⟩) := by
  split
  · exact settles_collapseNode h n
  · exact .stays

theorem settles_header (h : t.WellFormed) {header : Except CollapseError (List NodeId)}
    (herror : ∀ e, header = .error e → e.isBreach = true)
    (hok : ∀ head rest, header = .ok (head :: rest) → HandedOver t head rest) :
    Settles t (collapseHeader keep t header) := by
  cases header with
  | error e => exact .fails (herror e rfl)
  | ok run =>
    rw [collapseHeader]
    split
    · exact settles_collapseRun h fun head rest hrun => hok head rest (hrun ▸ rfl)
    · exact .stays

theorem settles_statement (h : t.WellFormed) (n : NodeId) : Settles t (statement keep t n) := by
  unfold statement
  split
  · unfold simpleStatement
    split
    · exact .stays
    · split
      · exact settles_region h _
      · exact .fails rfl
  · unfold suite
    split
    · exact .stays
    · split
      · exact .stays
      · exact settles_region h _

theorem settles_logicalLine (h : t.WellFormed) (n : NodeId) : Settles t (logicalLine keep t n) := by
  unfold logicalLine
  split
  · exact .stays
  · split
    · exact .stays
    · split
      · refine settles_header h (fun e he => ?_) fun head rest hrun => .matchHeader hrun
        unfold matchHeader at he
        split at he
        · rw [← Except.error.inj he]
          rfl
        · cases he
      · refine settles_header h (fun e he => ?_) fun head rest hrun => .suiteHeader hrun
        unfold suiteHeader at he
        split at he
        · split at he
          · rw [← Except.error.inj he]
            rfl
          · split at he <;> cases he
          · cases he
        · rw [← Except.error.inj he]
          rfl
      · exact settles_region h _

end Steps

/-- The steps before one of them lead from `t` to `u`, and that one fails with `u` as it is. -/
def StopsAt (step : Tree → NodeId → Outcome Bool) (t : Tree) (count : Nat) (ns : List NodeId)
    (u : Tree) (e : CollapseError) : Prop :=
  ∃ before n after total, ns = before ++ n :: after ∧ sweep step t count before = ⟨u, .ok total⟩ ∧
    step u n = ⟨u, .error e⟩

section Passes

variable {t u : Tree} {step : Tree → NodeId → Outcome Bool}

theorem wellFormed_of_replaces (h : t.WellFormed) (hu : Relation.ReflTransGen Replaces t u) :
    u.WellFormed := by
  induction hu with
  | refl => exact h
  | tail _ hstep ih =>
    obtain ⟨parent, head, rest, first, -, hrun⟩ := hstep
    simpa only [hrun] using lasting_wellFormed.replaceRun ih parent head rest first

/-- A pass is a run of replacements, and if it fails it does so between two of them. -/
theorem sweep_settles (hstep : ∀ (t : Tree) (n : NodeId), t.WellFormed → Settles t (step t n))
    (h : t.WellFormed) (count : Nat) (ns : List NodeId) :
    Relation.ReflTransGen Replaces t (sweep step t count ns).tree ∧
      ∀ e, (sweep step t count ns).result = .error e →
        e.isBreach = true ∧ StopsAt step t count ns (sweep step t count ns).tree e := by
  induction ns generalizing t count with
  | nil => exact ⟨.refl, fun e he => by cases he⟩
  | cons n rest ih =>
    rw [sweep]
    have hn := hstep t n h
    have hlater {v : Tree} {done : Bool} (hv : step t n = ⟨v, .ok done⟩)
        (hreached : Relation.ReflTransGen Replaces t v) :
        Relation.ReflTransGen Replaces t
            (sweep step v (if done then count + 1 else count) rest).tree ∧
          ∀ e, (sweep step v (if done then count + 1 else count) rest).result = .error e →
            e.isBreach = true ∧ StopsAt step t count (n :: rest)
              (sweep step v (if done then count + 1 else count) rest).tree e := by
      obtain ⟨hrun, hfail⟩ :=
        ih (wellFormed_of_replaces h hreached) (if done then count + 1 else count)
      refine ⟨hreached.trans hrun, fun e he => ?_⟩
      obtain ⟨hbreach, before, m, after, total, hsplit, hbefore, hm⟩ := hfail e he
      exact ⟨hbreach, n :: before, m, after, total, by rw [hsplit]; rfl,
        by rw [sweep, hv]; exact hbefore, hm⟩
    generalize hout : step t n = out at hn
    cases hn with
    | stays => exact hlater hout .refl
    | replaces run => exact hlater hout (.single run)
    | @fails e breach =>
      refine ⟨.refl, fun e' he' => ?_⟩
      obtain rfl := Except.error.inj he'
      exact ⟨breach, [], n, rest, count, rfl, rfl, hout⟩

end Passes

end Collapse

open Collapse

/-- A collapse that fails has broken off between two replacements, because of what it found and not
because of an edit. Whatever a pass hands over in a store that collapsing has reached is replaced. -/
theorem Tree.collapseUnchanged_error_between {t : Tree} (h : t.WellFormed) (ranges : List LineRange)
    (wholeStatements : Bool) :
    (∀ u e, t.collapseUnchanged ranges wholeStatements = ⟨u, .error e⟩ →
      e.isBreach = true ∧ Relation.ReflTransGen Replaces t u ∧
        (wholeStatements = true ∧ StopsAt (statement (.ofRanges ranges)) t 0 (statements t) u e ∨
          ∃ v count, (if wholeStatements then statementPass (.ofRanges ranges) t else ⟨t, .ok 0⟩) =
              (⟨v, .ok count⟩ : Outcome Nat) ∧
            StopsAt (logicalLine (.ofRanges ranges)) v 0 (newlines v) u e)) ∧
      ∀ v, Relation.ReflTransGen Replaces t v → ∀ head rest parent first, HandedOver v head rest →
        v.parent? head = some parent → v.firstLeaf? head = some first →
          ∃ w, replaceRun v parent head rest first = ⟨w, .ok true⟩ := by
  refine ⟨fun u e herror => ?_, fun v hv head rest parent first hrun hparent hfirst =>
    hrun.replaceRun_ok (wellFormed_of_replaces h hv) hparent hfirst⟩
  set keep := LineSet.ofRanges ranges
  have hfirst : Relation.ReflTransGen Replaces t
        (if wholeStatements then statementPass keep t else ⟨t, .ok 0⟩ : Outcome Nat).tree ∧
      ∀ e, (if wholeStatements then statementPass keep t else ⟨t, .ok 0⟩ : Outcome Nat).result =
          .error e →
        e.isBreach = true ∧ wholeStatements = true ∧ StopsAt (statement keep) t 0 (statements t)
          (if wholeStatements then statementPass keep t else ⟨t, .ok 0⟩ : Outcome Nat).tree e := by
    cases wholeStatements with
    | false => exact ⟨.refl, fun e he => by cases he⟩
    | true =>
      obtain ⟨hrun, hfail⟩ :=
        sweep_settles (fun t n h => @settles_statement t keep h n) h 0 (statements t)
      exact ⟨hrun, fun e he => ⟨(hfail e he).1, rfl, (hfail e he).2⟩⟩
  unfold Tree.collapseUnchanged at herror
  simp only at herror
  split at herror
  · next v e' hpass =>
    rw [hpass] at hfirst
    simp only [Outcome.mk.injEq, Except.error.injEq] at herror
    obtain ⟨rfl, rfl⟩ := herror
    obtain ⟨hbreach, hwhole, hstop⟩ := hfirst.2 e' rfl
    exact ⟨hbreach, hfirst.1, .inl ⟨hwhole, hstop⟩⟩
  · next v count hpass =>
    rw [hpass] at hfirst
    obtain ⟨hrun, hfail⟩ := sweep_settles (fun t n h => @settles_logicalLine t keep h n)
      (wellFormed_of_replaces h hfirst.1) 0 (newlines v)
    change Relation.ReflTransGen Replaces v (linePass keep v).tree at hrun
    change ∀ e, (linePass keep v).result = .error e → e.isBreach = true ∧
      StopsAt (logicalLine keep) v 0 (newlines v) (linePass keep v).tree e at hfail
    split at herror
    · next w e' hlines =>
      rw [hlines] at hrun hfail
      simp only [Outcome.mk.injEq, Except.error.injEq] at herror
      obtain ⟨rfl, rfl⟩ := herror
      obtain ⟨hbreach, hstop⟩ := hfail e' rfl
      exact ⟨hbreach, hfirst.1.trans hrun, .inr ⟨v, count, hpass, hstop⟩⟩
    · simp at herror

def unterminated : Tree :=
  .build .fileInput [.enter .simpleStmt, .token ⟨.name, "", "a", 1⟩, .token ⟨.newline, "", "\n", 1⟩,
    .leave, .enter .simpleStmt, .token ⟨.name, "", "b", 2⟩, .leave, .token ⟨.endMarker, "\n", "", 3⟩]

/-- The first statement has been replaced when the second is found to be broken. -/
theorem unterminated_error_between :
    unterminated.WellFormed ∧ ∃ u, unterminated.collapseUnchanged [] true =
        ⟨u, .error (.missingNewline 4 (some .name))⟩ ∧
      u.size = unterminated.size + 1 ∧ Relation.ReflTransGen Replaces unterminated u := by
  have hwf : unterminated.WellFormed := Tree.build_wellFormed ..
  have hresult : (unterminated.collapseUnchanged [] true).result =
      .error (.missingNewline 4 (some .name)) := by decide +kernel
  have hfails : unterminated.collapseUnchanged [] true =
      ⟨(unterminated.collapseUnchanged [] true).tree, .error (.missingNewline 4 (some .name))⟩ := by
    rw [← hresult]
  obtain ⟨-, hrun, -⟩ := (Tree.collapseUnchanged_error_between hwf [] true).1 _ _ hfails
  exact ⟨hwf, _, hfails, by decide +kernel, hrun⟩

end LineScope
