import LineScope.Proofs.Collapse.LinePass
import LineScope.Proofs.Collapse.Suites

/-!
# The statement pass over a program

Every simple statement and suite of a program that is not inside another is visited without error,
and `Collapse.sealBlock` says what is left.
-/
namespace LineScope

namespace Collapse

open LineScope.Tree Grammar

variable {keep : LineSet}

section Full

theorem full_decorators {decorators : List Decorator} (h : ∀ d ∈ decorators, d.Wf) :
    ∀ s ∈ decoratorsShape decorators, s.Full := by
  have hone : ∀ d ∈ decorators, d.shape.Full := by
    intro d hd
    refine .node (by simp) fun s hs => ?_
    rcases List.mem_append.mp hs with hs | hs
    · exact ((h d hd).1.2 s hs).full
    · rw [List.mem_singleton.mp hs]
      exact .leaf _
  match decorators with
  | [] => simp [decoratorsShape]
  | [d] => simpa [decoratorsShape] using hone
  | d :: e :: ds =>
    intro s hs
    have heq : s = .node .decorators ((d :: e :: ds).map Decorator.shape) := List.mem_singleton.mp hs
    rw [heq]
    refine .node (by simp) fun s hs => ?_
    obtain ⟨d, hd, rfl⟩ := List.mem_map.mp hs
    exact hone d hd

theorem full_decorate {decorators : List Decorator} (h : ∀ d ∈ decorators, d.Wf) {shape : Shape}
    (hshape : shape.Full) : (decorate decorators shape).Full := by
  have hdecorators := full_decorators h
  cases decorators with
  | nil => exact hshape
  | cons d ds =>
    refine .node (by simp) fun s hs => ?_
    rcases List.mem_append.mp hs with hs | hs
    · exact hdecorators s hs
    · exact List.mem_singleton.mp hs ▸ hshape

theorem full_leadShape (lead : Option Lead) {shape : Shape} (hshape : shape.Full) :
    (leadShape lead shape).Full := by
  cases lead with
  | none => exact hshape
  | some lead =>
    refine .node (by simp) fun s hs => ?_
    simp only [List.mem_cons, List.not_mem_nil, or_false] at hs
    rcases hs with rfl | rfl
    · exact .leaf _
    · exact hshape

theorem full_suiteShape {newline indent dedent : Leaf} {body : List Shape}
    (hbody : ∀ s ∈ body, s.Full) : (suiteShape newline indent body dedent).Full := by
  refine .node (by simp) fun s hs => ?_
  simp only [List.cons_append, List.mem_cons, List.mem_append, List.not_mem_nil, or_false] at hs
  rcases hs with rfl | rfl | hs | rfl
  · exact .leaf _
  · exact .leaf _
  · exact hbody s hs
  · exact .leaf _

mutual

theorem full_statement (s : Statement) (h : s.Wf) : s.shape.Full := by
  cases s with
  | line line => exact full_line h
  | definition decorators leaf => exact full_decorate h.2.1 (.leaf leaf)
  | compound decorators lead symbol clauses =>
    obtain ⟨hdecorators, -, -, hclauses⟩ := h
    refine full_decorate hdecorators (full_leadShape lead (.node ?_ (full_clauses clauses hclauses)))
    intro hnil
    exact @leavesOfAll_clauses_ne_nil [] clauses (by rw [hnil, List.map_nil]) hclauses rfl
  | choice header newline indent options dedent =>
    obtain ⟨hheader, -, -, hoptions, -⟩ := h
    refine .node (by simp) fun s hs => ?_
    simp only [List.mem_append, List.mem_cons, List.not_mem_nil, or_false] at hs
    rcases hs with (hs | rfl | rfl | hs) | rfl
    · exact (hheader.2 s hs).full
    · exact .leaf _
    · exact .leaf _
    · exact full_block options hoptions s hs
    · exact .leaf _

theorem full_block (block : Block) (h : block.Wf) : ∀ s ∈ block.shapes, s.Full := by
  cases block with
  | nil => simp [Block.shapes]
  | cons statement rest =>
    rw [Block.shapes, List.forall_mem_cons]
    exact ⟨full_statement statement h.1, full_block rest h.2⟩

theorem full_clauses (clauses : Clauses) (h : clauses.Wf) : ∀ s ∈ clauses.shapes, s.Full := by
  have hlines {lines : List Line} (hlines : ∀ line ∈ lines, line.Wf) :
      ∀ s ∈ lines.map Line.shape, s.Full := by
    intro s hs
    obtain ⟨line, hline, rfl⟩ := List.mem_map.mp hs
    exact full_line (hlines line hline)
  intro s hs
  cases clauses with
  | inline header body =>
    rcases List.mem_append.mp hs with hs | hs
    · exact (h.1.2 s hs).full
    · exact hlines h.2.2 s hs
  | suite header newline indent body dedent =>
    rcases List.mem_append.mp hs with hs | hs
    · exact (h.1.2 s hs).full
    · rw [List.mem_singleton.mp hs]
      exact full_suiteShape (full_block body h.2.2.2.1)
  | inlineThen header body rest =>
    simp only [Clauses.shapes, List.mem_append] at hs
    rcases hs with (hs | hs) | hs
    · exact (h.1.1.2 s hs).full
    · exact hlines h.1.2.2 s hs
    · exact full_clauses rest h.2 s hs
  | suiteThen header newline indent body dedent rest =>
    simp only [Clauses.shapes, List.mem_append, List.mem_cons] at hs
    rcases hs with hs | rfl | hs
    · exact (h.1.1.2 s hs).full
    · exact full_suiteShape (full_block body h.1.2.2.2.1)
    · exact full_clauses rest h.2 s hs

end

end Full

structure Adornment where
  id : NodeId
  decorators : Branch

section Adornments

def adornedFrames : Option Adornment → Context
  | none => []
  | some a => [⟨a.id, .decorated, [a.decorators], []⟩]

def adorned (d : Option Adornment) (definition : Branch) : Branch :=
  match d with
  | none => definition
  | some a => .node a.id .decorated [a.decorators, definition]

theorem fill_adorned (d : Option Adornment) (c : Context) (definition : Branch) :
    Context.fill (adornedFrames d ++ c) [definition] = c.fill [adorned d definition] := by
  cases d <;> simp [adornedFrames, adorned, Context.fill]

theorem exists_adorned {b : Branch} {decorators : List Decorator} {definition : Shape}
    (h : b.shape = decorate decorators definition) :
    ∃ d x, b = adorned d x ∧ x.shape = definition ∧
      (∀ y : Branch, (adorned d y).shape = decorate decorators y.shape) ∧
      ∀ a ∈ d, [a.decorators.shape] = decoratorsShape decorators := by
  cases decorators with
  | nil => exact ⟨none, b, rfl, h, fun _ => rfl, by simp⟩
  | cons d ds =>
    obtain ⟨s, hs⟩ := exists_decoratorsShape d ds
    change b.shape = .node .decorated (decoratorsShape (d :: ds) ++ [definition]) at h
    rw [hs] at h
    obtain ⟨id, parts, rfl, hparts⟩ := Branch.exists_node h
    obtain ⟨x, rest, rfl, rfl, hrest⟩ := List.map_eq_cons_iff.mp hparts
    obtain ⟨y, rfl, hy⟩ := List.map_eq_singleton_iff.mp hrest
    refine ⟨some ⟨id, x⟩, y, rfl, hy, fun z => ?_, ?_⟩
    · simp [adorned, Branch.shape, decorate, hs]
    · intro a ha
      rw [← Option.some.inj ha, hs]

theorem exists_ledBlock {b : Branch} {lead : Option Lead} {block : Shape}
    (h : b.shape = leadShape lead block) (hlead : ∀ l ∈ lead, l.Wf) :
    ∃ q x, b = ledBlock q x ∧ x.shape = block ∧
      (∀ y : Branch, (ledBlock q y).shape = leadShape lead y.shape) ∧
      leaderTokens q = leadTokens lead ∧ (∀ l ∈ q, l.key.kind = .async) ∧
      ∀ l ∈ q, l.wrapper ∈ [Symbol.asyncStmt, .asyncFuncdef] := by
  cases lead with
  | none => exact ⟨none, b, rfl, h, fun _ => rfl, rfl, by simp, by simp⟩
  | some lead =>
    obtain ⟨hwrapper, hkind⟩ := hlead lead rfl
    obtain ⟨id, parts, rfl, hparts⟩ := Branch.exists_node h
    obtain ⟨x, rest, rfl, hx, hrest⟩ := List.map_eq_cons_iff.mp hparts
    obtain ⟨k, rfl⟩ := Branch.exists_leaf hx
    obtain ⟨y, rfl, hy⟩ := List.map_eq_singleton_iff.mp hrest
    refine ⟨some ⟨id, lead.wrapper, k, lead.key⟩, y, rfl, hy, fun z => ?_, rfl, ?_, ?_⟩
    · simp [ledBlock, Branch.shape, leadShape]
    · intro l hl
      rwa [← Option.some.inj hl]
    · intro l hl
      rwa [← Option.some.inj hl]

theorem statementIds_decorators {decorators : List Decorator} (hwf : ∀ d ∈ decorators, d.Wf)
    {x : Branch} (h : [x.shape] = decoratorsShape decorators) : x.statementIds = [] := by
  have hone {b : Branch} {d : Decorator} (hd : d.Wf) (hb : b.shape = d.shape) :
      b.statementIds = [] := by
    obtain ⟨id, n, hs, rfl, hhs⟩ := exists_decorator hb
    have hheader : IsHeader (hs.map Branch.shape) := hhs ▸ hd.1
    rw [Branch.statementIds, if_neg (by simp), Branch.statementIdsOfAll_append,
      IsHeader.statementIds hheader]
    rfl
  rcases decorators with _ | ⟨d, _ | ⟨e, ds⟩⟩
  · simp [decoratorsShape] at h
  · exact hone (hwf d (by simp)) (List.singleton_inj.mp h)
  · obtain ⟨id, bs, rfl, hbs⟩ := Branch.exists_node (List.singleton_inj.mp h)
    rw [Branch.statementIds, if_neg (by simp), Branch.statementIdsOfAll_eq_flatMap,
      List.flatMap_eq_nil_iff]
    intro b hb
    have hmem : b.shape ∈ (d :: e :: ds).map Decorator.shape := hbs ▸ List.mem_map_of_mem hb
    obtain ⟨d', hd', heq⟩ := List.mem_map.mp hmem
    exact hone (hwf d' hd') heq.symm

theorem statementIds_compound {decorators : List Decorator} (hwf : ∀ d ∈ decorators, d.Wf)
    {d : Option Adornment} (hd : ∀ a ∈ d, [a.decorators.shape] = decoratorsShape decorators)
    {q : Option Leader} (hq : ∀ l ∈ q, l.wrapper ∈ [Symbol.asyncStmt, .asyncFuncdef])
    {owner : NodeId} {symbol : Symbol} (hsymbol : symbol ∈ blockForms) {bs : List Branch} :
    (adorned d (ledBlock q (.node owner symbol bs))).statementIds =
      Branch.statementIdsOfAll bs := by
  have hblock : (Branch.node owner symbol bs).statementIds = Branch.statementIdsOfAll bs := by
    rw [Branch.statementIds, if_neg]
    rintro (rfl | rfl) <;> simp [blockForms] at hsymbol
  have hled : (ledBlock q (.node owner symbol bs)).statementIds = Branch.statementIdsOfAll bs := by
    cases q with
    | none => exact hblock
    | some l =>
      have hwrapper := hq l rfl
      rw [ledBlock, Branch.statementIds, if_neg]
      · change [] ++ ((Branch.node owner symbol bs).statementIds ++ []) = _
        rw [hblock, List.append_nil, List.nil_append]
      · rintro (heq | heq) <;> simp [heq] at hwrapper
  cases d with
  | none => exact hled
  | some a =>
    rw [adorned, Branch.statementIds, if_neg (by simp)]
    simp [Branch.statementIdsOfAll, statementIds_decorators hwf (hd a rfl), hled]

end Adornments

section Tokens

theorem sealed?_eq_none {tokens : List Leaf} (h : sealed? keep tokens = none) (hne : tokens ≠ []) :
    clear keep tokens = false := by
  obtain ⟨leaf, more, rfl⟩ := List.exists_cons_of_ne_nil hne
  by_contra hclear
  rw [Bool.not_eq_false] at hclear
  rw [sealed?, if_pos hclear] at h
  cases h

theorem tokens_clauses_ne_nil {clauses : Clauses} (hwf : clauses.Wf) : clauses.tokens ≠ [] := by
  cases clauses with
  | inline header body =>
    rw [tokens_inline]
    exact List.append_ne_nil_of_left_ne_nil (header_tokens_ne_nil hwf.1) _
  | suite header newline indent body dedent =>
    rw [tokens_suite]
    exact List.append_ne_nil_of_left_ne_nil (header_tokens_ne_nil hwf.1) _
  | inlineThen header body rest =>
    rw [tokens_inlineThen, List.append_assoc]
    exact List.append_ne_nil_of_left_ne_nil (header_tokens_ne_nil hwf.1.1) _
  | suiteThen header newline indent body dedent rest =>
    rw [tokens_suiteThen]
    exact List.append_ne_nil_of_left_ne_nil (header_tokens_ne_nil hwf.1.1) _

theorem sealLines_wf {lines : List Line} (h : ∀ line ∈ lines, line.Wf) :
    ∀ line ∈ lines.map (sealLine keep), line.Wf := by
  intro line hline
  obtain ⟨l, hl, rfl⟩ := List.mem_map.mp hline
  exact sealLine_wf (h l hl)

theorem sealInit_wf {lines : List Line} (h : ∀ line ∈ lines, line.Wf) :
    ∀ line ∈ sealInit keep lines, line.Wf := by
  induction lines with
  | nil => simp [sealInit]
  | cons line rest ih =>
    cases rest with
    | nil => simpa [sealInit] using h
    | cons next rest =>
      rw [List.forall_mem_cons] at h
      rw [sealInit, List.forall_mem_cons]
      exact ⟨sealLine_wf h.1, ih h.2⟩

theorem sealInit_ne_nil {lines : List Line} (h : lines ≠ []) : sealInit keep lines ≠ [] := by
  match lines with
  | [] => exact absurd rfl h
  | [line] => simp [sealInit]
  | line :: next :: rest => simp [sealInit]

theorem sealToSuite_wf (clauses : Clauses) (h : clauses.Wf) : (sealToSuite keep clauses).Wf := by
  cases clauses with
  | inline header body => exact h
  | suite header newline indent body dedent => exact h
  | suiteThen header newline indent body dedent rest => exact h
  | inlineThen header body rest =>
    exact ⟨⟨h.1.1, by simpa using h.1.2.1, sealLines_wf h.1.2.2⟩, sealToSuite_wf rest h.2⟩

theorem sealClauses_wf (clauses : Clauses) (h : clauses.Wf) : (sealClauses keep clauses).Wf := by
  cases clauses with
  | inline header body => exact ⟨h.1, sealInit_ne_nil h.2.1, sealInit_wf h.2.2⟩
  | suite header newline indent body dedent => exact h
  | suiteThen header newline indent body dedent rest => exact ⟨h.1, sealClauses_wf rest h.2⟩
  | inlineThen header body rest =>
    exact ⟨⟨h.1.1, by simpa using h.1.2.1, sealLines_wf h.1.2.2⟩, sealClauses_wf rest h.2⟩

/-- Simple statements between two headers are not at the ends of their block. -/
theorem clear_inlineThen {header : List Shape} {body : List Line} {rest rest' : Clauses}
    (hheader : IsHeader header) (hwf : rest.Wf)
    (hrest : ∀ front, clear keep (front ++ rest'.tokens) = clear keep (front ++ rest.tokens))
    (front : List Leaf) :
    clear keep (front ++ (Clauses.inlineThen header (body.map (sealLine keep)) rest').tokens) =
      clear keep (front ++ (Clauses.inlineThen header body rest).tokens) := by
  have hmiddle := @clear_middle keep (front ++ Shape.tokensOfAll header)
    (Shape.tokensOfAll ((body.map (sealLine keep)).map Line.shape))
    (Shape.tokensOfAll (body.map Line.shape)) rest.tokens
    (by simp [header_tokens_ne_nil hheader]) (tokens_clauses_ne_nil hwf)
  rw [tokens_inlineThen, tokens_inlineThen, ← List.append_assoc, ← List.append_assoc, hrest,
    ← List.append_assoc, hmiddle, List.append_assoc]
  simp only [List.append_assoc]

theorem clear_sealToSuite (clauses : Clauses) (hwf : clauses.Wf) (front : List Leaf) :
    clear keep (front ++ (sealToSuite keep clauses).tokens) = clear keep (front ++ clauses.tokens) := by
  cases clauses with
  | inline header body => rfl
  | suite header newline indent body dedent => rfl
  | suiteThen header newline indent body dedent rest => rfl
  | inlineThen header body rest =>
    exact clear_inlineThen hwf.1.1 hwf.2 (clear_sealToSuite rest hwf.2) front

theorem clear_sealClauses (clauses : Clauses) (hwf : clauses.Wf) (front : List Leaf) :
    clear keep (front ++ (sealClauses keep clauses).tokens) = clear keep (front ++ clauses.tokens) := by
  cases clauses with
  | inline header body =>
    obtain ⟨hheader, hne, hbody⟩ := hwf
    obtain ⟨init, last, rfl⟩ := (List.eq_nil_or_concat body).resolve_left hne
    have hlast : Shape.tokensOfAll ([last].map Line.shape) ≠ [] := by
      simpa [Shape.tokensOfAll] using Shape.tokens_ne_nil_of_full (full_line (hbody last (by simp)))
    have hmiddle := @clear_middle keep (front ++ Shape.tokensOfAll header)
      (Shape.tokensOfAll ((init.map (sealLine keep)).map Line.shape))
      (Shape.tokensOfAll (init.map Line.shape)) _ (by simp [header_tokens_ne_nil hheader]) hlast
    rw [sealClauses, List.concat_eq_append, sealInit_concat, tokens_inline, tokens_inline,
      List.map_append, List.map_append, Shape.tokensOfAll_append, Shape.tokensOfAll_append]
    simpa only [List.append_assoc] using hmiddle
  | suite header newline indent body dedent => rfl
  | inlineThen header body rest =>
    exact clear_inlineThen hwf.1.1 hwf.2 (clear_sealClauses rest hwf.2) front
  | suiteThen header newline indent body dedent rest =>
    have hrest := clear_sealClauses rest hwf.2 (front ++ (Shape.tokensOfAll header ++
      suiteTokens newline indent body.tokens dedent))
    rw [sealClauses, tokens_suiteThen, tokens_suiteThen]
    simpa only [List.append_assoc] using hrest

end Tokens

section Compound

variable {t : Tree} {f : Frame} {above : Context} {others bs : List Branch} {d : Option Adornment}
  {q : Option Leader} {owner : NodeId} {symbol : Symbol} {decorators : List Decorator}
  {lead : Option Lead} {clauses : Clauses}

theorem adorned_ends {b : Branch} {n : NodeId} {newline : Leaf} (h : b.Ends n newline) :
    (adorned d b).Ends n newline := by
  cases d with
  | none => exact h
  | some a => exact @Branch.Ends.last n newline a.id .decorated [a.decorators] b h

theorem ledBlock_ends {b : Branch} {n : NodeId} {newline : Leaf} (h : b.Ends n newline) :
    (ledBlock q b).Ends n newline := by
  cases q with
  | none => exact h
  | some l => exact @Branch.Ends.last n newline l.id l.wrapper [.leaf l.k l.key] b h

/-- The simple statement at the end of a block decides about the whole statement. -/
theorem turns_lastLine {init : List Branch} {l : Branch} {parts : List Shape} {newline : Leaf}
    (h : t.Holds (Context.fill (f :: above)
      [adorned d (ledBlock q (.node owner symbol (init ++ [l])))] ++ others))
    (hafter : f.after ≠ []) (hl : l.shape = (Line.simple parts newline).shape)
    (hline : (Line.simple parts newline).Wf)
    (hfull : (adorned d (ledBlock q (.node owner symbol (init ++ [l])))).shape.Full) :
    Turns (statement keep) t [l.id] (f :: above) others fun run =>
      match sealed? keep (adorned d (ledBlock q (.node owner symbol (init ++ [l])))).shape.tokens with
      | some leaf => ∃ m, run = [.leaf m leaf]
      | none => run = [adorned d (ledBlock q (.node owner symbol (init ++ [l])))] := by
  have hfill : Context.fill ((⟨owner, symbol, init, []⟩ :: leaderFrames q) ++ adornedFrames d) [l] =
      [adorned d (ledBlock q (.node owner symbol (init ++ [l])))] := by
    have hblock := fill_ledBlock q (adornedFrames d) (.node owner symbol (init ++ [l]))
    have hdefinition := fill_adorned d [] (ledBlock q (.node owner symbol (init ++ [l])))
    rw [List.append_nil] at hdefinition
    rw [hdefinition] at hblock
    simpa [Context.fill] using hblock
  have hplace : t.Holds (Context.fill (((⟨owner, symbol, init, []⟩ :: leaderFrames q) ++
      adornedFrames d) ++ f :: above) [l] ++ others) := by
    rw [Context.fill_append, hfill]
    exact h
  have hnil : ∀ g ∈ ((⟨owner, symbol, init, []⟩ :: leaderFrames q) ++ adornedFrames d : Context),
      g.after = [] := by
    cases q <;> cases d <;> simp [leaderFrames, adornedFrames]
  have hstep := @statement_line keep t _ others parts newline l hplace hl hline
  rw [closing_append hnil hfill, closing_of_ne_nil _ hafter] at hstep
  have hends : ∃ n, l.Ends n newline := by
    obtain ⟨id, n, hs, rfl, rfl⟩ := exists_simple hl
    exact ⟨n, .simple (IsHeader.ne_nil hline.1)⟩
  obtain ⟨n, hends⟩ := hends
  obtain ⟨y, ys, hleaves, hys⟩ := (adorned_ends (ledBlock_ends (.last hends))).exists_cons hfull
  exact turns_decision h hfull hleaves hys hstep

theorem turns_compound_goes (hwf : clauses.Wf) (hsuite : clauses.hasSuite = true)
    (h : t.Holds (Context.fill (f :: above)
      [adorned d (ledBlock q (.node owner symbol bs))] ++ others))
    (hunled : Unled f.before) (hd : ∀ a ∈ d, [a.decorators.shape] = decoratorsShape decorators)
    (hshape : bs.map Branch.shape = clauses.shapes)
    (hfresh : ∀ x ∈ Branch.tokensOfAll bs, x.kind ≠ .verbatim)
    (hq : ∀ l ∈ q, l.key.kind = .async) {leaf : Leaf}
    (hsealed : sealed? keep (leaderTokens q ++ (sealToSuite keep clauses).tokens) = some leaf) :
    Turns (statement keep) t (Branch.statementIdsOfAll bs) (f :: above) others fun run =>
      ∃ m, run = [adorned d (.leaf m leaf)] := by
  have hfull : ∀ b ∈ [] ++ bs, b.shape.Full := fun b hb =>
    full_clauses clauses hwf _ (hshape ▸ List.mem_map_of_mem hb)
  rw [← fill_adorned, ← fill_ledBlock] at h
  cases d with
  | none =>
    have hturns := @turns_toSuite keep q owner symbol clauses t f above [] bs others hwf hsuite
      (by simpa [Context.fill, adornedFrames] using h) hshape hfull hfresh hq (fun _ => hunled) leaf
      (by simpa using hsealed)
    exact hturns
  | some a =>
    have hasync : Unled [a.decorators] := by
      simpa [Unled] using not_isAsync_decorators (hd a rfl)
    have hturns := @turns_toSuite keep q owner symbol clauses t ⟨a.id, .decorated, [a.decorators], []⟩
      (f :: above) [] bs others hwf hsuite (by simpa [Context.fill, adornedFrames] using h) hshape
      hfull hfresh hq (fun _ => hasync) leaf (by simpa using hsealed)
    refine hturns.through ?_
    rintro run ⟨m, rfl⟩
    exact ⟨[adorned (some a) (.leaf m leaf)], by simp [Context.fill, adorned], m, rfl⟩

theorem turns_compound_stays (hwf : clauses.Wf)
    (h : t.Holds (Context.fill (f :: above)
      [adorned d (ledBlock q (.node owner symbol bs))] ++ others))
    (hunled : Unled f.before) (hd : ∀ a ∈ d, [a.decorators.shape] = decoratorsShape decorators)
    (hshape : bs.map Branch.shape = clauses.shapes)
    (hfresh : ∀ x ∈ Branch.tokensOfAll bs, x.kind ≠ .verbatim)
    (hq : ∀ l ∈ q, l.key.kind = .async)
    (hkept : clauses.hasSuite = true →
      sealed? keep (leaderTokens q ++ (sealToSuite keep clauses).tokens) = none) :
    Turns (statement keep) t (Branch.statementIdsOfAll (openParts clauses bs)) (f :: above) others
      fun run => ∃ parts, run = [adorned d (ledBlock q (.node owner symbol parts))] ∧
        parts.map Branch.shape = (sealClauses keep clauses).shapes ∧
        (clauses.endsInline = true → parts.getLast? = bs.getLast?) := by
  have hfull : ∀ b ∈ [] ++ bs, b.shape.Full := fun b hb =>
    full_clauses clauses hwf _ (hshape ▸ List.mem_map_of_mem hb)
  have hplace : t.Holds (Context.fill (⟨owner, symbol, [], []⟩ ::
      (leaderFrames q ++ (adornedFrames d ++ f :: above))) bs ++ others) := by
    rw [← fill_adorned, ← fill_ledBlock] at h
    simpa [Context.fill] using h
  have hstays : clauses.hasSuite = true →
      Stays keep (adornedFrames d ++ f :: above) q ([] ++ bs) := by
    intro hsuite
    refine .inr ⟨hfull, ?_⟩
    have hclear := sealed?_eq_none (hkept hsuite)
      (by simp [tokens_clauses_ne_nil (sealToSuite_wf clauses hwf)])
    rw [clear_sealToSuite clauses hwf, tokens_eq_of_map hshape] at hclear
    simpa using hclear
  have hhead : q = none → ∀ g ∈ (adornedFrames d ++ f :: above).head?, Unled g.before := by
    intro _ g hg
    cases d with
    | none =>
      obtain rfl : f = g := Option.some.inj hg
      exact hunled
    | some a =>
      obtain rfl : (⟨a.id, .decorated, [a.decorators], []⟩ : Frame) = g := Option.some.inj hg
      simpa [Unled] using not_isAsync_decorators (hd a rfl)
  have hturns := sealsLines clauses hwf t _ q owner symbol [] bs others hplace hshape hfresh hq hhead
    hstays
  refine hturns.through ?_
  rintro run ⟨hrun, hlast⟩
  refine ⟨[adorned d (ledBlock q (.node owner symbol run))], ?_, run, rfl, hrun, hlast⟩
  have heq := fill_ledBlock q (adornedFrames d ++ f :: above) (.node owner symbol run)
  rw [fill_adorned] at heq
  simpa [Context.fill] using heq

theorem turns_compound
    (hdecorators : ∀ d ∈ decorators, d.Wf) (hlead : ∀ l ∈ lead, l.Wf) (hsymbol : symbol ∈ blockForms)
    (hwf : clauses.Wf) {b : Branch} (h : t.Holds (Context.fill (f :: above) [b] ++ others))
    (hunled : Unled f.before) (hafter : f.after ≠ [])
    (hshape : b.shape = (Statement.compound decorators lead symbol clauses).shape)
    (hfresh : ∀ x ∈ b.shape.tokens, x.kind ≠ .verbatim) :
    Turns (statement keep) t b.statementIds (f :: above) others fun run => ∃ x : Branch, run = [x] ∧
      x.shape = (sealStatement keep (.compound decorators lead symbol clauses)).shape := by
  obtain ⟨d, x, rfl, hx, hadorned, hd⟩ := exists_adorned hshape
  obtain ⟨q, y, rfl, hy, hled, hkeys, hq, hwrapper⟩ := exists_ledBlock hx hlead
  obtain ⟨owner, bs, rfl, hbs⟩ := Branch.exists_node hy
  have htokens : Branch.tokensOfAll bs = clauses.tokens := (tokens_eq_of_map hbs).symm
  have hbfresh : ∀ x ∈ Branch.tokensOfAll bs, x.kind ≠ .verbatim := by
    intro x hx
    refine hfresh x ?_
    rw [hshape, ← Statement.tokens, tokens_compound, ← htokens]
    exact List.mem_append_right _ hx
  rw [statementIds_compound hdecorators hd hwrapper hsymbol, sealStatement]
  cases hblock : sealedBlock? keep lead clauses with
  | some leaf =>
    rw [sealedBlock?] at hblock
    split at hblock
    · next hsuite =>
      rw [← hkeys] at hblock
      refine (turns_compound_goes hwf hsuite h hunled hd hbs hbfresh hq hblock).mono ?_
      rintro run ⟨m, rfl⟩
      refine ⟨_, rfl, ?_⟩
      rw [hadorned, shape_standIn, Branch.shape]
    · cases hblock
  | none =>
    have hturns := turns_compound_stays hwf h hunled hd hbs hbfresh hq (by
      intro hsuite
      rwa [sealedBlock?, if_pos hsuite, ← hkeys] at hblock)
    have hstand {parts : List Branch}
        (hparts : parts.map Branch.shape = (sealClauses keep clauses).shapes) :
        (adorned d (ledBlock q (.node owner symbol parts))).shape =
          (Statement.compound decorators lead symbol (sealClauses keep clauses)).shape := by
      rw [hadorned, hled, Branch.shape, Branch.shapesOfAll_eq_map, hparts, Statement.shape]
    by_cases hends : clauses.endsInline = true
    · obtain ⟨init, l, words, newline, rfl, hl, hline⟩ :=
        exists_last_line clauses hwf hends hbs hbfresh
      have hids : Branch.statementIdsOfAll (init ++ [l]) =
          Branch.statementIdsOfAll (openParts clauses (init ++ [l])) ++ [l.id] := by
        rw [openParts, if_pos hends, List.dropLast_concat, Branch.statementIdsOfAll_append]
        simp [Branch.statementIdsOfAll, statementIds_line hl]
      rw [hids]
      refine hturns.andThen ?_
      rintro u run others' hu ⟨parts, rfl, hparts, hlast⟩
      obtain ⟨init', rfl⟩ : ∃ init', parts = init' ++ [l] := by
        simpa [List.getLast?_eq_some_iff] using hlast hends
      have hstep := @turns_lastLine keep _ _ _ _ _ _ _ _ _ _ _ _ hu hafter hl hline (by
        rw [hstand hparts]
        exact full_statement (.compound decorators lead symbol (sealClauses keep clauses))
          ⟨hdecorators, hlead, hsymbol, sealClauses_wf clauses hwf⟩)
      refine hstep.mono fun run hrun => ?_
      rw [hstand hparts, ← Statement.tokens] at hrun
      rw [sealedWhole?, if_pos hends]
      cases hleaf : sealed? keep
          (Statement.compound decorators lead symbol (sealClauses keep clauses)).tokens with
      | some leaf =>
        rw [hleaf] at hrun
        obtain ⟨m, rfl⟩ := hrun
        exact ⟨_, rfl, rfl⟩
      | none =>
        rw [hleaf] at hrun
        exact ⟨_, hrun, hstand hparts⟩
    · rw [openParts, if_neg hends] at hturns
      refine hturns.mono ?_
      rintro run ⟨parts, rfl, hparts, -⟩
      refine ⟨_, rfl, ?_⟩
      rw [sealedWhole?, if_neg hends, hstand hparts]

end Compound

section Programs

theorem sealed?_kind {tokens : List Leaf} {leaf : Leaf} (h : sealed? keep tokens = some leaf) :
    leaf.kind = .verbatim := by
  unfold sealed? at h
  split at h
  · cases h
  · split at h
    · rw [← Option.some.inj h]
      rfl
    · cases h

theorem standIn_wf {decorators : List Decorator} (h : ∀ d ∈ decorators, d.Wf) {leaf : Leaf}
    (hleaf : leaf.kind = .verbatim) : (standIn decorators leaf).Wf := by
  cases decorators with
  | nil => exact hleaf
  | cons d ds => exact ⟨by simp, h, hleaf⟩

mutual

theorem sealStatement_wf (s : Statement) (h : s.Wf) : (sealStatement keep s).Wf := by
  cases s with
  | line line => exact sealLine_wf h
  | definition decorators leaf => exact h
  | choice header newline indent options dedent =>
    obtain ⟨hheader, hnewline, hindent, hoptions, hdedent⟩ := h
    exact ⟨hheader, hnewline, hindent, sealBlock_wf options hoptions, hdedent⟩
  | compound decorators lead symbol clauses =>
    obtain ⟨hdecorators, hlead, hsymbol, hclauses⟩ := h
    rw [sealStatement]
    split
    · next leaf hleaf =>
      rw [sealedBlock?] at hleaf
      split at hleaf
      · exact standIn_wf hdecorators (sealed?_kind hleaf)
      · cases hleaf
    · split
      · next leaf hleaf =>
        rw [sealedWhole?] at hleaf
        split at hleaf
        · exact sealed?_kind hleaf
        · cases hleaf
      · exact ⟨hdecorators, hlead, hsymbol, sealClauses_wf clauses hclauses⟩

theorem sealBlock_wf (block : Block) (h : block.Wf) : (sealBlock keep block).Wf := by
  cases block with
  | nil => exact h
  | cons statement rest => exact ⟨sealStatement_wf statement h.1, sealBlock_wf rest h.2⟩

end

theorem not_isAsync_statement {s : Statement} (hwf : s.Wf) {b : Branch} (h : b.shape = s.shape) :
    b.isAsync = false := by
  have hleaf {id : NodeId} {leaf : Leaf} (hkind : leaf.kind = .verbatim) :
      (Branch.leaf id leaf).isAsync = false := by
    simp [Branch.isAsync, hkind]
  cases b with
  | node id symbol parts => rfl
  | leaf id leaf =>
    cases s with
    | line line =>
      cases line with
      | simple parts newline => cases h
      | verbatim token =>
        obtain rfl : leaf = token := Shape.leaf.inj h
        exact hleaf hwf
    | definition decorators token =>
      obtain ⟨hne, -, -⟩ := hwf
      cases decorators with
      | nil => exact absurd rfl hne
      | cons d ds => cases h
    | choice header newline indent options dedent => cases h
    | compound decorators lead symbol clauses =>
      cases decorators with
      | cons d ds => cases h
      | nil =>
        cases lead with
        | none => cases h
        | some lead => cases h

/-- The statement pass over a match, given what it does to the cases. -/
theorem turns_choice {t : Tree} {f : Frame} {above : Context} {others : List Branch} {b : Branch}
    {header : List Shape} {newline indent dedent : Leaf} {options : Block}
    (h : t.Holds (Context.fill (f :: above) [b] ++ others)) (hheader : IsHeader header)
    (hindent : indent.kind = .indent)
    (hshape : b.shape = (Statement.choice header newline indent options dedent).shape)
    (hoptions : ∀ (g : Frame) (cs : List Branch),
      t.Holds (Context.fill (g :: f :: above) cs ++ others) → Unled g.before → g.after ≠ [] →
      cs.map Branch.shape = options.shapes →
      Turns (statement keep) t (Branch.statementIdsOfAll cs) (g :: f :: above) others fun run =>
        run.map Branch.shape = (sealBlock keep options).shapes) :
    Turns (statement keep) t b.statementIds (f :: above) others fun run => ∃ x : Branch, run = [x] ∧
      x.shape = (Statement.choice header newline indent (sealBlock keep options) dedent).shape := by
  obtain ⟨id, parts, rfl, hparts⟩ := Branch.exists_node hshape
  obtain ⟨start, last, rfl, hstart, hlast⟩ := List.map_eq_append_iff.mp hparts
  obtain ⟨x, rfl, hx⟩ := List.map_eq_singleton_iff.mp hlast
  obtain ⟨d, rfl⟩ := Branch.exists_leaf hx
  obtain ⟨hs, rest, rfl, rfl, hrest⟩ := List.map_eq_append_iff.mp hstart
  obtain ⟨x, rest, rfl, hx, hmore⟩ := List.map_eq_cons_iff.mp hrest
  obtain ⟨n, rfl⟩ := Branch.exists_leaf hx
  obtain ⟨x, cs, rfl, hx, hcs⟩ := List.map_eq_cons_iff.mp hmore
  obtain ⟨i, rfl⟩ := Branch.exists_leaf hx
  have hplace : t.Holds (Context.fill (⟨id, .matchStmt, hs ++ [.leaf n newline, .leaf i indent],
      [.leaf d dedent]⟩ :: f :: above) cs ++ others) := by
    simpa [Context.fill] using h
  have hids : (Branch.node id .matchStmt (hs ++ .leaf n newline :: .leaf i indent :: cs ++
      [.leaf d dedent])).statementIds = Branch.statementIdsOfAll cs := by
    rw [Branch.statementIds, if_neg (by simp), List.append_assoc, Branch.statementIdsOfAll_append,
      IsHeader.statementIds hheader]
    simp [Branch.statementIdsOfAll, Branch.statementIds]
  rw [hids]
  have hturns := hoptions _ cs hplace (by simp [Unled, Branch.isAsync, hindent]) (by simp) hcs
  refine hturns.through ?_
  intro run hrun
  refine ⟨[.node id .matchStmt (hs ++ .leaf n newline :: .leaf i indent :: run ++ [.leaf d dedent])],
    by simp [Context.fill], _, rfl, ?_⟩
  simp [Branch.shape, Statement.shape, hrun]

mutual

theorem turns_statement (s : Statement) (hwf : s.Wf) {t : Tree} {f : Frame} {above : Context}
    {others : List Branch} {b : Branch} (h : t.Holds (Context.fill (f :: above) [b] ++ others))
    (hunled : Unled f.before) (hafter : f.after ≠ []) (hshape : b.shape = s.shape)
    (hfresh : ∀ x ∈ s.tokens, x.kind ≠ .verbatim) :
    Turns (statement keep) t b.statementIds (f :: above) others fun run => ∃ x : Branch, run = [x] ∧
      x.shape = (sealStatement keep s).shape := by
  cases s with
  | line line => exact turns_line h hafter hshape hwf hfresh
  | definition decorators leaf =>
    refine absurd hwf.2.2 (hfresh leaf ?_)
    simp [tokens_definition]
  | compound decorators lead symbol clauses =>
    obtain ⟨hdecorators, hlead, hsymbol, hclauses⟩ := hwf
    exact turns_compound hdecorators hlead hsymbol hclauses h hunled hafter hshape (hshape ▸ hfresh)
  | choice header newline indent options dedent =>
    obtain ⟨hheader, -, hindent, hoptions, -⟩ := hwf
    refine turns_choice h hheader hindent hshape fun g cs hg hunled hafter hcs => ?_
    refine turns_block options hoptions hg hunled hafter hcs fun x hx => hfresh x ?_
    rw [tokens_choice]
    exact List.mem_append_right _ ((sublist_suiteTokens newline indent _ dedent).subset hx)

theorem turns_block (block : Block) (hwf : block.Wf) {t : Tree} {f : Frame} {above : Context}
    {others bs : List Branch} (h : t.Holds (Context.fill (f :: above) bs ++ others))
    (hunled : Unled f.before) (hafter : f.after ≠ []) (hshape : bs.map Branch.shape = block.shapes)
    (hfresh : ∀ x ∈ block.tokens, x.kind ≠ .verbatim) :
    Turns (statement keep) t (Branch.statementIdsOfAll bs) (f :: above) others fun run =>
      run.map Branch.shape = (sealBlock keep block).shapes := by
  cases block with
  | nil =>
    rw [Block.shapes, List.map_eq_nil_iff] at hshape
    subst hshape
    exact Turns.stay h rfl
  | cons statement rest =>
    obtain ⟨b, bs, rfl, hb, hbs⟩ := List.map_eq_cons_iff.mp hshape
    rw [Block.tokens, Block.shapes, Shape.tokensOfAll] at hfresh
    have hfirst : t.Holds (Context.fill (⟨f.id, f.symbol, f.before, bs ++ f.after⟩ :: above) [b] ++
        others) := by
      simpa [Context.fill] using h
    have hturns := @turns_statement statement hwf.1 _ _ _ _ b hfirst hunled (by simp [hafter]) hb
      fun x hx => hfresh x (List.mem_append_left _ hx)
    rw [Branch.statementIdsOfAll]
    refine hturns.andThen ?_
    rintro u run others' hu ⟨x, rfl, hx⟩
    have hnext : u.Holds (Context.fill (⟨f.id, f.symbol, f.before ++ [x], f.after⟩ :: above) bs ++
        others') := by
      simpa [Context.fill] using hu
    have hasync := not_isAsync_statement (@sealStatement_wf keep statement hwf.1) hx
    refine (turns_block rest hwf.2 hnext (by simp [Unled, hasync]) hafter hbs
      fun y hy => hfresh y (List.mem_append_right _ hy)).through ?_
    intro run hrun
    exact ⟨x :: run, by simp [Context.fill], by simp [sealBlock, Block.shapes, hx, hrun]⟩

end

/-- The statement pass over a file without verbatim leaves. -/
theorem statementPass_file {t : Tree} {root : Branch} {others : List Branch}
    (h : t.Holds (root :: others)) (hid : root.id = rootId) {block : Block} {endMarker : Leaf}
    (hshape : root.shape = fileShape block endMarker) (hwf : block.Wf)
    (hfresh : ∀ x ∈ block.tokens, x.kind ≠ .verbatim) :
    ∃ u count root' others', statementPass keep t = ⟨u, .ok count⟩ ∧ u.Holds (root' :: others') ∧
      root'.id = rootId ∧ root'.shape = fileShape (sealBlock keep block) endMarker := by
  obtain ⟨id, parts, rfl, hparts⟩ := Branch.exists_node hshape
  obtain ⟨bs, last, rfl, hbs, hlast⟩ := List.map_eq_append_iff.mp hparts
  obtain ⟨x, rfl, hx⟩ := List.map_eq_singleton_iff.mp hlast
  obtain ⟨e, rfl⟩ := Branch.exists_leaf hx
  obtain rfl : id = rootId := hid
  have hplace : t.Holds (Context.fill (⟨rootId, .fileInput, [], [.leaf e endMarker]⟩ :: []) bs ++
      others) := by
    simpa [Context.fill] using h
  obtain ⟨u, run, others', hswept, hu, -, hrun⟩ := @turns_block keep block hwf _ _ _ _ _ hplace
    (by simp [Unled]) (by simp) hbs hfresh
  have hids : statements t = Branch.statementIdsOfAll bs := by
    rw [statements_eq h rfl, Branch.statementIds, if_neg (by simp)]
    simp [Branch.statementIdsOfAll, Branch.statementIds]
  obtain ⟨count, hcount⟩ := hswept.sweep 0
  refine ⟨u, count, .node rootId .fileInput (run ++ [.leaf e endMarker]), others', ?_,
    by simpa [Context.fill] using hu, rfl, ?_⟩
  · rw [statementPass, hids, hcount]
  · simp [Branch.shape, fileShape, hrun]

end Programs

end Collapse

end LineScope
