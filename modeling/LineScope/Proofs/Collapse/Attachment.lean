import LineScope.Proofs.Collapse.Overtaking
import LineScope.Proofs.Parse.StatementForm
import LineScope.Proofs.Tree.BuildOrder

/-!
# Replacing what is still there

The statement pass goes on with what it has listed. What a step finds cut off was cut off by a suite
that the pass came to before, and `Collapse.Overtaken` keeps that along the pass: for each node that
is gone there is such a suite, which takes all that is still to come below this node.
-/
namespace LineScope

namespace Collapse

open LineScope.Tree

/-- Between the visited nodes and those to come: what is gone went with the owner of a visited suite,
and what is still to come below it stands behind that suite. -/
structure Overtaken (t u : Tree) (visited todo : List NodeId) : Prop where
  patched : Patched t u
  taken : ∀ z, (t.parent? z).isSome = true → u.parent? z = none →
    ∃ s ∈ visited, ∀ n ∈ todo, t.Below n z → t.symbol? s = some .suite ∧
      ∃ owner part, t.Holder owner z ∧ List.Sublist [s, part] (t.children owner) ∧ t.Below n part

section Steps

variable {t u v : Tree} {n : NodeId} {visited todo : List NodeId} {keep : LineSet}

/-- Going up ends somewhere between a node of the whole tree and the root. -/
theorem Patched.exists_top (h : Patched t u) (hn : t.Below n rootId) :
    ∃ w, u.Below n w ∧ t.Below w rootId ∧ u.parent? w = none := by
  induction hn using Relation.ReflTransGen.head_induction_on with
  | refl => exact ⟨rootId, .refl, .refl, h.wellFormed.root_parent⟩
  | @head n p hp hup ih =>
    rcases h.sheds.parent? n (lt_size_of_parent? hp) with hkept | hgone
    · obtain ⟨w, hpw, hroot, hw⟩ := ih
      exact ⟨w, .head (hkept.trans hp) hpw, hroot, hw⟩
    · exact ⟨n, .refl, .head hp hup, hgone⟩

theorem Overtaken.start (ht : t.WellFormed) : Overtaken t t [] todo where
  patched := .refl ht
  taken z hz hnone := by
    rw [hnone] at hz
    cases hz

theorem Overtaken.stays (h : Overtaken t u visited (n :: todo)) : Overtaken t u visited todo where
  patched := h.patched
  taken z hz hgone := by
    obtain ⟨s, hs, htaken⟩ := h.taken z hz hgone
    exact ⟨s, hs, fun m hm => htaken m (List.mem_cons_of_mem _ hm)⟩

/-- A step that counts takes the parts behind a suite, or nothing that is still to come. -/
theorem Overtaken.replaces (h : Overtaken t u visited (n :: todo)) (ht : t.WellFormed)
    (hled : t.Led) (hn : t.symbol? n = some .simpleStmt ∨ t.symbol? n = some .suite)
    (hahead : ∀ m ∈ todo, t.Precedes n m) (hok : statement keep u n = ⟨v, .ok true⟩) :
    Overtaken t v (visited ++ [n]) todo := by
  obtain ⟨z, hregion, hz⟩ := statement_eq_ok hok
  refine ⟨h.patched.step hz, fun w hw hgone => ?_⟩
  cases hu : u.parent? w with
  | none =>
    obtain ⟨s, hs, htaken⟩ := h.stays.taken w hw hu
    exact ⟨s, List.mem_append_left _ hs, htaken⟩
  | some p =>
    obtain ⟨_, _, _, -, -, -, -, hrun⟩ := collapseNode_eq_ok hz
    have hwz : w ∈ [z] := by
      by_contra hne
      rw [parent?_replaceRun hrun (lt_size_of_parent? hu) hne, hu] at hgone
      cases hgone
    obtain rfl := List.mem_singleton.mp hwz
    exact ⟨n, by simp, fun m hm => hregion.takes h.patched ht hled hn (hahead m hm)⟩

/-- A step that counts replaces what is attached, or comes too late for it. -/
theorem Overtaken.attached_or_behind (h : Overtaken t u visited (n :: todo)) (ht : t.WellFormed)
    (hn : t.Below n rootId) (hok : statement keep u n = ⟨v, .ok true⟩) :
    Replacement.Attached ⟨u, n, v⟩ ∨ ∃ s ∈ visited, t.Behind s n := by
  by_cases hattached : u.isAttached n = true
  · exact .inl (Replacement.attached_of_statement h.patched.wellFormed hok hattached)
  right
  obtain ⟨w, hnw, hroot, hw⟩ := h.patched.exists_top hn
  obtain ⟨p, hp⟩ : ∃ p, t.parent? w = some p := by
    rcases Relation.ReflTransGen.cases_head hroot with rfl | ⟨p, hp, -⟩
    · exact absurd (h.patched.wellFormed.isAttached_iff_below.mpr hnw) hattached
    · exact ⟨p, hp⟩
  obtain ⟨s, hs, htaken⟩ := h.taken w (by rw [hp]; rfl) hw
  have hbelow := h.patched.sheds.below ht.toLinked (ht.lt_size_of_below_root hn) hnw
  obtain ⟨hsuite, owner, part, hholder, hsub, hpart⟩ := htaken n (by simp) hbelow
  refine ⟨s, hs, hsuite, owner, part, hsub, hpart, ?_⟩
  rintro rfl
  obtain ⟨z, hregion, hz⟩ := statement_eq_ok hok
  obtain ⟨q, -, -, hq, -⟩ := collapseNode_eq_ok hz
  exact hregion.simple_of_gone h.patched ht hq hholder (ht.siblings_of_sublist hsub).2.1 hw hnw

theorem Overtaken.record (h : Overtaken t u visited todo) (ht : t.WellFormed) (hled : t.Led)
    (hordered : todo.Pairwise t.Precedes)
    (htodo : ∀ n ∈ todo,
      t.Below n rootId ∧ (t.symbol? n = some .simpleStmt ∨ t.symbol? n = some .suite))
    {earlier later : List Replacement} {r : Replacement}
    (hrecord : Collapse.record (statement keep) u todo = earlier ++ r :: later) :
    r.Attached ∨ ∃ s ∈ visited ++ earlier.map Replacement.visited, t.Behind s r.visited := by
  induction todo generalizing u visited earlier with
  | nil => simp [Collapse.record] at hrecord
  | cons n todo ih =>
    obtain ⟨hahead, hordered⟩ := List.pairwise_cons.mp hordered
    obtain ⟨hn, htodo⟩ := List.forall_mem_cons.mp htodo
    have hsettles := @settles_statement u keep h.patched.wellFormed n
    rw [Collapse.record] at hrecord
    generalize hv : statement keep u n = out at hsettles hrecord
    cases hsettles with
    | stays => exact ih h.stays hordered htodo hrecord
    | @replaces v run =>
      cases earlier with
      | nil =>
        obtain ⟨rfl, -⟩ := List.cons.inj hrecord
        simpa using h.attached_or_behind ht hn.1 hv
      | cons first earlier =>
        obtain ⟨rfl, hrest⟩ := List.cons.inj hrecord
        simpa using ih (h.replaces ht hled hn.2 hahead hv) hordered htodo hrest
    | fails breach => simp at hrecord

end Steps

end Collapse

open Collapse

/-- What the statement pass replaces is attached, or it stands behind a suite whose own turn came
before and whose statement has been replaced then. -/
theorem Tree.attached_or_behind_of_statementRecord {t : Tree} (h : t.WellFormed) (hled : t.Led)
    {ranges : List LineRange} {wholeStatements : Bool} {earlier later : List Replacement}
    {r : Replacement}
    (hrecord : t.statementRecord ranges wholeStatements = earlier ++ r :: later) :
    r.Attached ∨ ∃ e ∈ earlier, t.Behind e.visited r.visited := by
  unfold Tree.statementRecord at hrecord
  split at hrecord
  · obtain ⟨hordered, hvisited⟩ := statements_ordered h
    simpa using (Overtaken.start h).record h hled hordered hvisited hrecord
  · simp at hrecord

namespace Parse

variable {text : String} {report : Report} {t : Tree}

theorem led_ofShapes (text : String) (report : Report) :
    (Tree.ofShapes .fileInput (lower text report)).Led := by
  intro key p hkey hp
  have hform := lower_statementForm text report
  have hmem {n : NodeId} (hn : n < (Tree.ofShapes .fileInput (lower text report)).size) :
      n ∈ (Tree.ofShapes .fileInput (lower text report)).descendants rootId := by
    rw [Tree.ofShapes, Tree.build_descendants]
    exact List.mem_range.mpr hn
  obtain ⟨q, hq, hhead, hsymbol⟩ := hform.async key (hmem (Tree.lt_size_of_parent? hp)) hkey
  obtain rfl := Option.some.inj (hq.symm.trans hp)
  obtain ⟨first, block, hchildren, -⟩ :=
    hform.wrapper q (hmem ((Tree.ofShapes_wellFormed ..).parent_lt_size hp)) hsymbol
  rw [hchildren] at hhead
  obtain rfl := Option.some.inj hhead
  exact ⟨block, hchildren⟩

/-- All that a collapse of a parsed file replaces and counts hangs below the root, but for statements
that the suite of another part has overtaken. -/
theorem replaces_attached (h : Parse.tree text report = .ok t) (ranges : List LineRange)
    (wholeStatements : Bool) :
    Traces t (t.statementRecord ranges wholeStatements ++ t.lineRecord ranges wholeStatements)
        (t.collapseUnchanged ranges wholeStatements).tree ∧
      (∀ u summary, t.collapseUnchanged ranges wholeStatements = ⟨u, .ok summary⟩ →
        summary.statements = (t.statementRecord ranges wholeStatements).length ∧
          summary.logicalLines = (t.lineRecord ranges wholeStatements).length) ∧
      (∀ r ∈ t.lineRecord ranges wholeStatements, r.Attached) ∧
      ∀ earlier r later, t.statementRecord ranges wholeStatements = earlier ++ r :: later →
        r.Attached ∨ ∃ e ∈ earlier, t.Behind e.visited r.visited := by
  obtain rfl : Tree.ofShapes .fileInput (lower text report) = t := by
    unfold Parse.tree at h
    split at h
    · cases h
    · exact Except.ok.inj h
  have hwf := Tree.ofShapes_wellFormed .fileInput (lower text report)
  exact ⟨Tree.traces_records hwf ranges wholeStatements, fun u summary => Tree.length_records,
    fun r => Tree.attached_of_mem_lineRecord hwf, fun earlier r later =>
      Tree.attached_or_behind_of_statementRecord hwf (led_ofShapes text report)⟩

/-- A one-line body at the end of a statement is left alone when a suite has taken the statement. -/
theorem lastBody_replaces_attached :
    let text := "if a:\n    x\nelse: y\n"
    let report : Report :=
      .node ⟨"module", 0, 20, false, false, false, false⟩
        [.node ⟨"if_statement", 0, 19, false, false, false, false⟩
            [.node ⟨"if", 0, 2, false, false, false, false⟩ [],
              .node ⟨"identifier", 3, 4, false, false, false, false⟩ [],
              .node ⟨":", 4, 5, false, false, false, false⟩ [],
              .node ⟨"block", 10, 11, false, false, false, false⟩
                [.node ⟨"expression_statement", 10, 11, false, false, false, false⟩
                    [.node ⟨"identifier", 10, 11, false, false, false, false⟩ []]],
              .node ⟨"else_clause", 12, 19, false, false, false, false⟩
                [.node ⟨"else", 12, 16, false, false, false, false⟩ [],
                  .node ⟨":", 16, 17, false, false, false, false⟩ [],
                  .node ⟨"block", 18, 19, false, false, false, false⟩
                    [.node ⟨"expression_statement", 18, 19, false, false, false, false⟩
                        [.node ⟨"identifier", 18, 19, false, false, false, false⟩ []]]]]]
    ∃ t u, Parse.tree text report = .ok t ∧ t.collapseUnchanged [] true = ⟨u, .ok ⟨1, 0⟩⟩ ∧
      ∀ r ∈ t.statementRecord [] true ++ t.lineRecord [] true, r.Attached := by
  intro text report
  set t := Tree.ofShapes .fileInput (lower text report) with ht
  have htree : Parse.tree text report = .ok t := rfl
  have hresult : (t.collapseUnchanged [] true).result = .ok ⟨1, 0⟩ := by decide +kernel
  have hdone : t.collapseUnchanged [] true =
      ⟨(t.collapseUnchanged [] true).tree, .ok ⟨1, 0⟩⟩ := by rw [← hresult]
  obtain ⟨-, hcounts, hlines, hstatements⟩ := replaces_attached htree [] true
  obtain ⟨only, honly⟩ := List.length_eq_one_iff.mp (hcounts _ _ hdone).1.symm
  refine ⟨t, _, htree, hdone, fun r hr => ?_⟩
  rcases List.mem_append.mp hr with hr | hr
  · rw [honly, List.mem_singleton] at hr
    rw [hr]
    simpa using hstatements [] only [] honly
  · exact hlines r hr

/-- The body of the `elif` is replaced and counted inside a statement that is already gone. -/
theorem elifBody_replaced_detached :
    let text := "if a:\n    x\nelif b: y\nelse:\n    z\n"
    let report : Report :=
      .node ⟨"module", 0, 34, false, false, false, false⟩
        [.node ⟨"if_statement", 0, 33, false, false, false, false⟩
            [.node ⟨"if", 0, 2, false, false, false, false⟩ [],
              .node ⟨"identifier", 3, 4, false, false, false, false⟩ [],
              .node ⟨":", 4, 5, false, false, false, false⟩ [],
              .node ⟨"block", 10, 11, false, false, false, false⟩
                [.node ⟨"expression_statement", 10, 11, false, false, false, false⟩
                    [.node ⟨"identifier", 10, 11, false, false, false, false⟩ []]],
              .node ⟨"elif_clause", 12, 21, false, false, false, false⟩
                [.node ⟨"elif", 12, 16, false, false, false, false⟩ [],
                  .node ⟨"identifier", 17, 18, false, false, false, false⟩ [],
                  .node ⟨":", 18, 19, false, false, false, false⟩ [],
                  .node ⟨"block", 20, 21, false, false, false, false⟩
                    [.node ⟨"expression_statement", 20, 21, false, false, false, false⟩
                        [.node ⟨"identifier", 20, 21, false, false, false, false⟩ []]]],
              .node ⟨"else_clause", 22, 33, false, false, false, false⟩
                [.node ⟨"else", 22, 26, false, false, false, false⟩ [],
                  .node ⟨":", 26, 27, false, false, false, false⟩ [],
                  .node ⟨"block", 32, 33, false, false, false, false⟩
                    [.node ⟨"expression_statement", 32, 33, false, false, false, false⟩
                        [.node ⟨"identifier", 32, 33, false, false, false, false⟩ []]]]]]
    ∃ t, Parse.tree text report = .ok t ∧
      (t.collapseUnchanged [] true).result = .ok ⟨2, 0⟩ ∧
      ∃ r ∈ t.statementRecord [] true, r.visited = 16 ∧ r.Cuts 16 ∧
        r.before.isAttached 16 = false ∧ ¬ r.Attached := by
  intro text report
  set t := Tree.ofShapes .fileInput (lower text report) with ht
  obtain ⟨r, hr, hvisited, hcuts, hdetached⟩ : ∃ r ∈ t.statementRecord [] true,
      r.visited = 16 ∧ r.Cuts 16 ∧ r.before.isAttached 16 = false := by decide +kernel
  refine ⟨t, rfl, by decide +kernel, r, hr, hvisited, hcuts, hdetached, fun hattached => ?_⟩
  rw [hattached 16 hcuts] at hdetached
  cases hdetached

end Parse

end LineScope
