import LineScope.Proofs.Parse.Equations
import LineScope.Proofs.Parse.Reading

/-!
# Steps of the lowering

A routine of the lowering goes through nodes with one cursor, which stands in front of the tokens of
those that are left. `Parse.Front` says so, and every node that is read leads from one front to the
next. What is made of the nodes has no part in it.
-/
namespace LineScope

namespace Parse

open Text Construct

theorem token_lexes {text : String} {top : List Construct} (h : LaidOut text top) {t : Construct}
    (ht : t ∈ tokensOfAll top) {tokenKind' : TokenKind} (hlayout : tokenKind'.isLayout = false)
    (hmade : tokenKind' = tokenKind t.kind (slice text.toList t.start t.stop) ∨
      t.kind = "async" ∧ tokenKind' = .async) :
    Lexes text (fun c => ([(c.take (.ofText text) tokenKind' t.start t.stop).1],
      (c.take (.ofText text) tokenKind' t.start t.stop).2)) [t] := by
  intro c hc
  obtain ⟨hstart, hstop⟩ := h.boundaries (LaidOut.mem_nodes_of_token ht)
  obtain ⟨hreaches, hoffset⟩ := reaches_take hlayout hmade hstart hstop (h.token_lt ht).le hc
  exact ⟨hreaches, hoffset, by simpa [Leaf.TokenFirst, Cursor.take] using hlayout⟩

/-- What lowering makes of a node, or of its parts, holds the tokens of the node. -/
structure Faithful (text : String) (top : List Construct) (p : Construct) : Prop where
  expression : p ∈ nodesOfAll top → p.isPlaced .expression = true →
    Lexes text (fun c => ((expression (.ofText text) c p).1.tokens,
      (expression (.ofText text) c p).2)) p.tokens
  expressions : p ∈ nodesOfAll top → Among top .expression p.parts →
    Lexes text (fun c => (Shape.tokensOfAll (expressions (.ofText text) c p.parts).1,
      (expressions (.ofText text) c p.parts).2)) (tokensOfAll p.parts)
  compound : p ∈ nodesOfAll top → p.isPlaced .body = true → ∀ symbol wrapper,
    compoundSymbol? p.kind = some symbol →
      Reads text top (fun c => ((compound (.ofText text) c symbol wrapper p).1.tokens,
        (compound (.ofText text) c symbol wrapper p).2)) p.tokens p.stop
  statements : p ∈ nodesOfAll top → p.kind = "block" → Among top .body p.parts →
    Reads text top (fun c => (Shape.tokensOfAll (statements (.ofText text) c .idle p.parts).1,
      (statements (.ofText text) c .idle p.parts).2)) p.tokens p.stop
  clauses : p ∈ nodesOfAll top → p.isToken = false → Among top .clause p.parts →
    Reads text top (fun c => (Shape.tokensOfAll (clauses (.ofText text) c p.parts).1,
      (clauses (.ofText text) c p.parts).2)) p.tokens p.stop
  matchCases : p ∈ nodesOfAll top → p.kind = "block" → Among top .cases p.parts →
    Reads text top (fun c => (Shape.tokensOfAll (matchCases (.ofText text) c p.parts).1,
      (matchCases (.ofText text) c p.parts).2)) p.tokens p.stop

/-- The cursor stands in front of nodes behind `lo`, which `next` follows. -/
structure Front (text : String) (top : List Construct) (site : Site) (lo next : Nat) (c : Cursor)
    (parts : List Construct) : Prop where
  among : Among top site parts
  spans : ascend lo next parts = true
  opens : Opens text top next
  ready : Ready text c (firstStart (tokensOfAll parts) next)

structure Step (text : String) (top : List Construct) (site : Site) (next : Nat) (c : Cursor)
    (leaves : List Leaf) (c' : Cursor) (p : Construct) (rest : List Construct) : Prop where
  reaches : Reaches text c leaves c' p.tokens (firstStart (tokensOfAll rest) next)
  first : Leaf.TokenFirst leaves
  front : Front text top site p.stop next c' rest

theorem ascend_mono {lo hi hi' : Nat} {parts : List Construct} (h : ascend lo hi parts = true)
    (hle : hi ≤ hi') : ascend lo hi' parts = true := by
  induction parts generalizing lo with
  | nil =>
    rw [ascend, decide_eq_true_eq] at h ⊢
    omega
  | cons p rest ih =>
    rw [ascend, Bool.and_eq_true] at h ⊢
    exact ⟨h.1, ih h.2⟩

theorem ascend_append {lo hi : Nat} {parts more : List Construct}
    (h : ascend lo hi (parts ++ more) = true) :
    ∃ mid, ascend lo mid parts = true ∧ ascend mid hi more = true := by
  induction parts generalizing lo with
  | nil => exact ⟨lo, by simp [ascend], h⟩
  | cons p rest ih =>
    rw [List.cons_append, ascend, Bool.and_eq_true] at h
    obtain ⟨mid, hparts, hmore⟩ := ih h.2
    exact ⟨mid, by rw [ascend, h.1, hparts]; rfl, hmore⟩

theorem tokensOfAll_append (parts more : List Construct) :
    tokensOfAll (parts ++ more) = tokensOfAll parts ++ tokensOfAll more := by
  simp [tokensOfAll_eq_flatMap]

section Fronts

variable {text : String} {top rest : List Construct} {site : Site} {lo next : Nat} {c : Cursor}
  {p : Construct} (h : LaidOut text top)

theorem Front.cons (hfront : Front text top site lo next c (p :: rest)) :
    p ∈ nodesOfAll top ∧ p.isPlaced site = true ∧ lo ≤ p.start ∧ Among top site rest ∧
      ascend p.stop next rest = true := by
  have hamong := among_cons.mp hfront.among
  have hspans := hfront.spans
  rw [ascend, Bool.and_eq_true, decide_eq_true_eq] at hspans
  exact ⟨hamong.1.1, hamong.1.2, hspans.1, hamong.2, hspans.2⟩

include h

/-- The parts of a node, where the cursor is in front of the node. -/
theorem front_parts (hp : p ∈ nodesOfAll top) (hplaced : p.isPlaced site = true)
    (htoken : p.isToken = false) (hopens : Opens text top next) (hnext : p.stop ≤ next)
    (hc : Ready text c (firstStart p.tokens next)) :
    Front text top (site.below p.kind) p.start next c p.parts := by
  refine ⟨among_parts hp hplaced htoken, ascend_mono (h.nested p hp) hnext, hopens, ?_⟩
  rwa [← tokens_of_not_isToken htoken]

theorem Front.below (hfront : Front text top site lo next c (p :: rest)) (htoken : p.isToken = false) :
    Front text top (site.below p.kind) p.start (firstStart (tokensOfAll rest) next) c p.parts := by
  obtain ⟨hp, hplaced, -, hamong, hspans⟩ := hfront.cons
  have hready := hfront.ready
  rw [tokensOfAll, firstStart_append] at hready
  exact front_parts h hp hplaced htoken (hfront.opens.firstStart (tokens_mem hamong))
    (le_first h hamong hspans) hready

/-- Nodes one after the other. The cursor gets to the second ones behind the first. -/
theorem Front.append {parts : List Construct} (hfront : Front text top site lo next c (parts ++ rest)) :
    ∃ mid, Front text top site lo (firstStart (tokensOfAll rest) next) c parts ∧
      ∀ c', Ready text c' (firstStart (tokensOfAll rest) next) →
        Front text top site mid next c' rest := by
  obtain ⟨mid, hspans, hspans'⟩ := ascend_append hfront.spans
  obtain ⟨hamong, hamong'⟩ : Among top site parts ∧ Among top site rest :=
    List.forall_mem_append.mp hfront.among
  have hready := hfront.ready
  rw [tokensOfAll_append, firstStart_append] at hready
  exact ⟨mid, ⟨hamong, ascend_mono hspans (le_first h hamong' hspans'),
    hfront.opens.firstStart (tokens_mem hamong'), hready⟩,
    fun c' hready' => ⟨hamong', hspans', hfront.opens, hready'⟩⟩

/-- Whatever reads the first node leads to the next one. -/
theorem Front.reads (hfront : Front text top site lo next c (p :: rest))
    {run : Cursor → List Leaf × Cursor} (hreads : Reads text top run p.tokens p.stop) :
    Step text top site next c (run c).1 (run c).2 p rest := by
  obtain ⟨-, -, -, hamong, hspans⟩ := hfront.cons
  have hready := hfront.ready
  rw [tokensOfAll, firstStart_append] at hready
  obtain ⟨hreaches, hfirst⟩ := hreads _ (hfront.opens.firstStart (tokens_mem hamong))
    (le_first h hamong hspans) c hready
  exact ⟨hreaches, hfirst, hamong, hspans, hfront.opens, hreaches.ready⟩

/-- Whatever cuts the tokens of the first node stops right behind them. -/
theorem Front.lexes (hfront : Front text top site lo next c (p :: rest))
    {run : Cursor → List Leaf × Cursor} (hlexes : Lexes text run p.tokens)
    (hblock : p.kind ≠ "block") :
    Step text top site next c (run c).1 (run c).2 p rest ∧ Behind top p (run c).2 := by
  obtain ⟨hp, -, -, hamong, hspans⟩ := hfront.cons
  obtain ⟨hreaches, hfirst, hbehind⟩ := hlexes.stop h hp hblock hfront.ready
  have hrest := hreaches.mono (le_first h hamong hspans)
  exact ⟨⟨hrest, hfirst, hamong, hspans, hfront.opens, hrest.ready⟩, hbehind⟩

/-- A node other than a block is read as at least one leaf, which is no layout. -/
theorem Step.first_append {leaves : List Leaf} {c' : Cursor}
    (hstep : Step text top site next c leaves c' p rest) (hp : p ∈ nodesOfAll top)
    (hblock : p.kind ≠ "block") (more : List Leaf) : Leaf.TokenFirst (leaves ++ more) :=
  hstep.first.append_right (hstep.reaches.leaves_ne_nil (h.full p hp hblock)) more

theorem Front.expression (hfront : Front text top site lo next c (p :: rest))
    (hfaithful : Faithful text top p) (hkind : isExpression p.kind = true) :
    Step text top site next c (expression (.ofText text) c p).1.tokens
        (expression (.ofText text) c p).2 p rest ∧
      Behind top p (expression (.ofText text) c p).2 := by
  obtain ⟨hp, hplaced, -⟩ := hfront.cons
  exact hfront.lexes h (hfaithful.expression hp (isPlaced_expression hplaced hkind))
    (ne_block_of_isExpression hkind)

/-- The tokens of a block start no earlier than its first part, and there is one. -/
theorem block_tokens {first : Construct} (hp : p ∈ nodesOfAll top) (hkind : p.kind = "block")
    (hfirst : p.parts.head? = some first) (hinner : first.kind ≠ "block") :
    p.tokens ≠ [] ∧ p.start ≤ first.start ∧ ∀ t ∈ p.tokens, first.start ≤ t.start := by
  obtain ⟨more, hmore⟩ := List.head?_eq_some_iff.mp hfirst
  have htoken := LaidOut.block_not_isToken hkind
  have hpart {q : Construct} (hq : q ∈ p.parts) : q ∈ nodesOfAll top := LaidOut.part_mem hp htoken hq
  have hnested := h.nested p hp
  rw [hmore, ascend, Bool.and_eq_true, decide_eq_true_eq] at hnested
  obtain ⟨-, htokens⟩ := @spans_of_ascend first.start p.stop p.parts
    (by simp [hmore, ascend, hnested.2]) fun q hq => h.spans_node (hpart hq)
  rw [tokens_of_not_isToken htoken]
  refine ⟨?_, hnested.1, fun t ht => (htokens t ht).1⟩
  have hne := h.full first (hpart (List.mem_of_head? hfirst)) hinner
  simp [hmore, tokensOfAll, hne]

end Fronts

section Clauses

/-- In front of parts of a compound statement or clause. Behind a header, which `headed` tells, the
cursor is right behind its last token. -/
structure ClauseFront (text : String) (top : List Construct) (headed : Bool) (lo next : Nat)
    (c : Cursor) (parts : List Construct) : Prop extends Front text top .clause lo next c parts where
  blocks : blocksHeaded headed parts = true
  header : headed = true → ∃ t ∈ tokensOfAll top, c.offset = t.stop ∧ t.stop ≤ lo

theorem Front.clauses {text : String} {top : List Construct} (h : LaidOut text top) {p : Construct}
    (hp : p ∈ nodesOfAll top) {next : Nat} {c : Cursor}
    (hfront : Front text top .clause p.start next c p.parts) :
    ClauseFront text top false p.start next c p.parts := ⟨hfront, h.headed p hp, by simp⟩

variable {text : String} {top rest : List Construct} {headed : Bool} {lo next : Nat} {c : Cursor}
  {p : Construct} (h : LaidOut text top)
  (hfront : ClauseFront text top headed lo next c (p :: rest))
include hfront

theorem ClauseFront.blocks_cons :
    (p.kind = "block" → headed = true) ∧ blocksHeaded p.isHeader rest = true := by
  have hblocks := hfront.blocks
  rw [blocksHeaded, Bool.and_eq_true] at hblocks
  refine ⟨fun hkind => ?_, hblocks.2⟩
  simpa [hkind] using hblocks.1

include h

theorem ClauseFront.step_header (hfaithful : Faithful text top p) (hheader : p.isHeader = true) :
    Step text top .clause next c (expression (.ofText text) c p).1.tokens
        (expression (.ofText text) c p).2 p rest ∧
      ClauseFront text top true p.stop next (expression (.ofText text) c p).2 rest := by
  obtain ⟨-, hplaced, -⟩ := hfront.toFront.cons
  have hkind : isExpression p.kind = true := by
    simpa [Site.admits, isHeader_iff.mp hheader] using admits_of_isPlaced hplaced
  obtain ⟨hstep, t, -, ht, hoffset, hle⟩ := hfront.toFront.expression h hfaithful hkind
  have hblocks := hfront.blocks_cons.2
  rw [hheader] at hblocks
  exact ⟨hstep, hstep.front, hblocks, fun _ => ⟨t, ht, hoffset, hle⟩⟩

theorem ClauseFront.step_async (hasync : p.kind = "async") :
    Step text top .clause next c [(c.take (.ofText text) .async p.start p.stop).1]
        (c.take (.ofText text) .async p.start p.stop).2 p rest ∧
      ClauseFront text top true p.stop next (c.take (.ofText text) .async p.start p.stop).2 rest := by
  obtain ⟨hp, -⟩ := hfront.toFront.cons
  have hself : p.isToken = true := by simp [isToken, h.async p hp hasync, hasync]
  have htop := LaidOut.token_mem hp
    (by rw [tokens_of_isToken hself]; exact List.mem_singleton_self _)
  have hlexes := @token_lexes text top h p htop .async rfl (.inr ⟨hasync, rfl⟩)
  rw [← tokens_of_isToken hself] at hlexes
  obtain ⟨hstep, t, -, ht, hoffset, hle⟩ := hfront.toFront.lexes h hlexes (by rw [hasync]; decide)
  have hblocks := hfront.blocks_cons.2
  rw [show p.isHeader = true by rw [isHeader, hasync]; rfl] at hblocks
  exact ⟨hstep, hstep.front, hblocks, fun _ => ⟨t, ht, hoffset, hle⟩⟩

omit h hfront in
/-- Behind what is no header, nothing is known of the cursor. -/
theorem Step.clauseFront {leaves : List Leaf} {c' : Cursor}
    (hstep : Step text top .clause next c leaves c' p rest) (hheader : p.isHeader = false)
    (hblocks : blocksHeaded p.isHeader rest = true) :
    ClauseFront text top false p.stop next c' rest := by
  rw [hheader] at hblocks
  exact ⟨hstep.front, hblocks, by simp⟩

theorem ClauseFront.below_clause (hclause : isClause p.kind = true) :
    Front text top .clause p.start (firstStart (tokensOfAll rest) next) c p.parts := by
  obtain ⟨hp, -⟩ := hfront.toFront.cons
  have hbelow := hfront.toFront.below h (h.parted_not_isToken hp (by simp [needsHeader, hclause]))
  simp only [Site.below, if_neg (ne_block_of_isClause hclause), hclause, if_true] at hbelow
  exact hbelow

theorem ClauseFront.step_clause (hfaithful : Faithful text top p) (hclause : isClause p.kind = true) :
    Step text top .clause next c (Shape.tokensOfAll (clauses (.ofText text) c p.parts).1)
        (clauses (.ofText text) c p.parts).2 p rest ∧
      ClauseFront text top false p.stop next (clauses (.ofText text) c p.parts).2 rest := by
  obtain ⟨hp, -⟩ := hfront.toFront.cons
  have htoken := h.parted_not_isToken hp (by simp [needsHeader, hclause])
  have hstep := hfront.toFront.reads h
    (hfaithful.clauses hp htoken (hfront.below_clause h hclause).among)
  exact ⟨hstep, hstep.clauseFront (by simp [isHeader, hclause]) hfront.blocks_cons.2⟩

variable (hkind : p.kind = "block")
include hkind

omit h in
theorem ClauseFront.header_before_block :
    ∃ t ∈ tokensOfAll top, c.offset = t.stop ∧ t.stop ≤ p.start := by
  obtain ⟨-, -, hlo, -⟩ := hfront.toFront.cons
  obtain ⟨t, ht, hoffset, hle⟩ := hfront.header (hfront.blocks_cons.1 hkind)
  exact ⟨t, ht, hoffset, hle.trans hlo⟩

omit h in
theorem ClauseFront.among_block : Among top .body p.parts := by
  obtain ⟨hp, hplaced, -⟩ := hfront.toFront.cons
  have hbelow := among_parts hp hplaced (LaidOut.block_not_isToken hkind)
  simpa only [Site.below, if_pos hkind] using hbelow

omit h in
theorem ClauseFront.step_empty (hparts : p.parts = []) :
    p.tokens = [] ∧ ClauseFront text top false p.stop next c rest := by
  obtain ⟨-, -, -, hamong, hspans⟩ := hfront.toFront.cons
  have hnil : p.tokens = [] := by
    rw [tokens_of_not_isToken (LaidOut.block_not_isToken hkind), hparts, tokensOfAll]
  have hready := hfront.ready
  rw [tokensOfAll, hnil, List.nil_append] at hready
  have hblocks := hfront.blocks_cons.2
  rw [show p.isHeader = false by simp [isHeader, hkind]] at hblocks
  exact ⟨hnil, ⟨hamong, hspans, hfront.opens, hready⟩, hblocks, by simp⟩

/-- The statements of a block, from whatever cursor in front of them. -/
theorem ClauseFront.step_body (hfaithful : Faithful text top p) {c' : Cursor}
    (hready : Ready text c' (firstStart (tokensOfAll (p :: rest)) next)) :
    Step text top .clause next c' (Shape.tokensOfAll (statements (.ofText text) c' .idle p.parts).1)
        (statements (.ofText text) c' .idle p.parts).2 p rest ∧
      ClauseFront text top false p.stop next (statements (.ofText text) c' .idle p.parts).2 rest := by
  obtain ⟨hp, -⟩ := hfront.toFront.cons
  have hmoved : Front text top .clause lo next c' (p :: rest) := { hfront.toFront with ready := hready }
  have hstep := hmoved.reads h (hfaithful.statements hp hkind (hfront.among_block hkind))
  exact ⟨hstep, hstep.clauseFront (by simp [isHeader, hkind]) hfront.blocks_cons.2⟩

variable {first : Construct} (hfirst : p.parts.head? = some first)
  (hline : (LineIndex.ofText text.toList).lineOf first.start ≠
    (LineIndex.ofText text.toList).lineOf (c.offset - 1))
include hfirst hline

theorem ClauseFront.newline_before_block :
    Reaches text c [(c.takeNewline (.ofText text)).1] (c.takeNewline (.ofText text)).2 []
      (firstStart (tokensOfAll (p :: rest)) next) := by
  obtain ⟨hp, -, -, hamong, hspans⟩ := hfront.toFront.cons
  obtain ⟨t, ht, hoffset, hle⟩ := hfront.header_before_block hkind
  have hinner := hfront.among_block hkind first (List.mem_of_head? hfirst)
  obtain ⟨hne, hstart, htokens⟩ := block_tokens h hp hkind hfirst (ne_block_of_body hinner.2)
  have hbreak : Breaks text t.stop first.start := breaks_of_lineOf_ne h ht
    (h.boundaries hinner.1).1 (hle.trans hstart) (hoffset ▸ hline)
  have hlater : first.start ≤ firstStart (tokensOfAll (p :: rest)) next := by
    rw [tokensOfAll, firstStart_append, firstStart_of_ne_nil hne _ first.start]
    exact le_firstStart htokens (Nat.le_refl _)
  have hboundary := opens_boundary h (hfront.opens.firstStart (tokens_mem hfront.among))
  exact reaches_newline hfront.ready.1
    (.inl (hbreak.of_le hfront.ready.1 hoffset.le hboundary hlater))

theorem ClauseFront.suite (hfaithful : Faithful text top p) :
    let body := statements (.ofText text) (c.takeNewline (.ofText text)).2 .idle p.parts
    Reaches text c ((c.takeNewline (.ofText text)).1 ::
        marker .indent ((LineIndex.ofText text.toList).lineOf first.start) ::
        Shape.tokensOfAll body.1 ++ [marker .dedent body.2.lastLine]) body.2 p.tokens
      (firstStart (tokensOfAll rest) next) := by
  have hnewline := hfront.newline_before_block h hkind hfirst hline
  have hstep := (hfront.step_body h hkind hfaithful hnewline.ready).1
  obtain ⟨hp, -⟩ := hfront.toFront.cons
  obtain ⟨t, ht, hoffset, hle⟩ := hfront.header_before_block hkind
  obtain ⟨hne, hstart, htokens⟩ := block_tokens h hp hkind hfirst
    (ne_block_of_body (hfront.among_block hkind first (List.mem_of_head? hfirst)).2)
  refine hnewline.suite ?_ hstep.reaches hstep.first hne (by omega) htokens
  rw [lastLine_takeNewline, (takeNewline_newlineCut hfront.ready.1).line]

end Clauses

section Match

/-- In front of parts of a match. A header in front of the cursor has its line broken before a
block. -/
structure MatchFront (text : String) (top : List Construct) (prev : Option Construct) (lo next : Nat)
    (c : Cursor) (parts : List Construct) : Prop extends Front text top .subject lo next c parts where
  blocks : blocksHeaded (prev.any isHeader) parts = true
  breaks : (prev.toList ++ parts).IsChain fun header block =>
    block.kind = "block" → BreaksAfter text top header.stop
  header : ∀ p ∈ prev, p.isHeader = true → c.offset ≤ p.stop ∧ p.stop ≤ lo

theorem Front.subject {text : String} {top : List Construct} (h : LaidOut text top) {p : Construct}
    (hp : p ∈ nodesOfAll top) (hkind : p.kind = "match_statement") {next : Nat} {c : Cursor}
    (hfront : Front text top .subject p.start next c p.parts) :
    MatchFront text top none p.start next c p.parts :=
  ⟨hfront, h.headed p hp, h.afterSubject p hp hkind, by simp⟩

variable {text : String} {top rest : List Construct} {prev : Option Construct} {lo next : Nat}
  {c : Cursor} {p : Construct} (h : LaidOut text top)
  (hfront : MatchFront text top prev lo next c (p :: rest))
include hfront

theorem Step.matchFront {c₀ : Cursor} {leaves : List Leaf} {c' : Cursor}
    (hstep : Step text top .subject next c₀ leaves c' p rest)
    (hheader : p.isHeader = true → c'.offset ≤ p.stop) :
    MatchFront text top (some p) p.stop next c' rest := by
  have hblocks := hfront.blocks
  rw [blocksHeaded, Bool.and_eq_true] at hblocks
  refine ⟨hstep.front, hblocks.2, hfront.breaks.right_of_append, ?_⟩
  rintro q ⟨rfl⟩ hq
  exact ⟨hheader hq, Nat.le_refl _⟩

include h

theorem MatchFront.step_header (hfaithful : Faithful text top p) (hkind : p.kind ≠ "block") :
    Step text top .subject next c (expression (.ofText text) c p).1.tokens
        (expression (.ofText text) c p).2 p rest ∧
      MatchFront text top (some p) p.stop next (expression (.ofText text) c p).2 rest := by
  obtain ⟨-, hplaced, -⟩ := hfront.toFront.cons
  have hexpression : isExpression p.kind = true := by
    simpa [Site.admits, hkind] using admits_of_isPlaced hplaced
  obtain ⟨hstep, t, -, -, hoffset, hle⟩ := hfront.toFront.expression h hfaithful hexpression
  exact ⟨hstep, hstep.matchFront hfront fun _ => hoffset.le.trans hle⟩

variable (hkind : p.kind = "block")
include hkind

omit h in
theorem MatchFront.among_block : Among top .cases p.parts := by
  obtain ⟨hp, hplaced, -⟩ := hfront.toFront.cons
  have hbelow := among_parts hp hplaced (LaidOut.block_not_isToken hkind)
  rwa [hkind] at hbelow

theorem MatchFront.newline_before_block :
    c.offset ≤ p.start ∧
    Reaches text c [(c.takeNewline (.ofText text)).1] (c.takeNewline (.ofText text)).2 []
      (firstStart (tokensOfAll (p :: rest)) next) := by
  obtain ⟨-, -, hlo, hamong, hspans⟩ := hfront.toFront.cons
  have hblocks := hfront.blocks
  rw [blocksHeaded, Bool.and_eq_true] at hblocks
  obtain ⟨header, rfl, hheader⟩ : ∃ header, prev = some header ∧ header.isHeader = true := by
    simpa [hkind, Option.any_eq_true] using hblocks.1
  obtain ⟨hoffset, hle⟩ := hfront.header header rfl hheader
  have hchain := hfront.breaks
  rw [Option.toList_some, List.singleton_append, List.isChain_cons_cons] at hchain
  refine ⟨by omega, newline_after h ⟨hfront.ready.1, hoffset⟩ (hchain.1 hkind) hfront.among ?_
    hfront.opens⟩
  rw [ascend, Bool.and_eq_true, decide_eq_true_eq]
  exact ⟨by omega, hspans⟩

variable (hfaithful : Faithful text top p)
include hfaithful

theorem MatchFront.step_cases :
    let c' := (c.takeNewline (.ofText text)).2
    Step text top .subject next c' (Shape.tokensOfAll (matchCases (.ofText text) c' p.parts).1)
        (matchCases (.ofText text) c' p.parts).2 p rest ∧
      MatchFront text top (some p) p.stop next (matchCases (.ofText text) c' p.parts).2 rest := by
  obtain ⟨hp, -⟩ := hfront.toFront.cons
  have hready := (hfront.newline_before_block h hkind).2.ready
  have hmoved : Front text top .subject lo next (c.takeNewline (.ofText text)).2 (p :: rest) :=
    { hfront.toFront with ready := hready }
  have hstep := hmoved.reads h (hfaithful.matchCases hp hkind (hfront.among_block hkind))
  exact ⟨hstep, hstep.matchFront hfront (by simp [isHeader, hkind])⟩

theorem MatchFront.suite :
    let c' := (c.takeNewline (.ofText text)).2
    let body := matchCases (.ofText text) c' p.parts
    Reaches text c ((c.takeNewline (.ofText text)).1 ::
      marker .indent ((p.parts.head?.map fun first =>
        (Source.ofText text).index.lineOf first.start).getD c'.lastLine) ::
      Shape.tokensOfAll body.1 ++ [marker .dedent body.2.lastLine]) body.2 p.tokens
      (firstStart (tokensOfAll rest) next) := by
  obtain ⟨hle, hnewline⟩ := hfront.newline_before_block h hkind
  have hbody := (hfront.step_cases h hkind hfaithful).1
  cases hfirst : p.parts.head? with
  | none =>
    refine hnewline.append (hbody.reaches.indented fun hlined => ⟨Nat.le_refl _, ?_⟩)
    exact (hbody.reaches.climbs hlined).1
  | some first =>
    obtain ⟨hp, -⟩ := hfront.toFront.cons
    have hplaced := (hfront.among_block hkind first (List.mem_of_head? hfirst)).2
    have hinner : first.kind ≠ "block" := by
      rw [show first.kind = "case_clause" from beq_iff_eq.mp (admits_of_isPlaced hplaced)]
      decide
    obtain ⟨hne, hstart, htokens⟩ := block_tokens h hp hkind hfirst hinner
    refine hnewline.suite ?_ hbody.reaches hbody.first hne (hle.trans hstart) htokens
    rw [lastLine_takeNewline, (takeNewline_newlineCut hfront.ready.1).line]

end Match

section Statements

/-- The cursor is right behind a simple statement or semicolon, with which the statement under way
ends; without one, no statement is under way. -/
def Tracks (top : List Construct) (pending : Pending) (c : Cursor) : Option Construct → Prop
  | none => pending.parts = []
  | some p => pending.parts ≠ [] ∧ pending.separated = (p.kind == ";") ∧ Behind top p c

/-- In front of statements, with one under way that ends with `prev`. -/
structure StatementFront (text : String) (top : List Construct) (pending : Pending)
    (prev : Option Construct) (lo next : Nat) (c : Cursor) (parts : List Construct) : Prop extends
    Front text top .body lo next c parts where
  tracks : Tracks top pending c prev
  first : prev = none → ∀ p ∈ parts.head?, p.kind ≠ ";"
  separates : (prev.toList ++ parts).IsChain (Separates text)
  last : ∀ t ∈ (tokensOfAll (prev.toList ++ parts)).getLast?,
    Breaks text t.stop next ∨ next = byteLength text.toList

variable {text : String} {top parts rest : List Construct} {pending : Pending}
  {prev : Option Construct} {lo next : Nat} {c : Cursor} {p : Construct} (h : LaidOut text top)

include h in
theorem Front.statements (hp : p ∈ nodesOfAll top) (hkind : p.kind = "block")
    (hfront : Front text top .body p.start next c p.parts) :
    StatementFront text top .idle none p.start next c p.parts := by
  have hcases : ∀ q ∈ p.parts, q.kind ≠ "case_clause" := by
    intro q hq heq
    have hadmits := admits_of_isPlaced (hfront.among q hq).2
    rw [heq] at hadmits
    exact absurd hadmits (by decide)
  obtain ⟨hfirst, hseparates⟩ := h.block p hp hkind hcases
  refine ⟨hfront, rfl, fun _ => hfirst, hseparates, fun t ht => ?_⟩
  have hle := ((spans_among h hfront.among hfront.spans).2 t (List.mem_of_getLast? ht)).2
  rw [Option.toList_none, List.nil_append,
    ← tokens_of_not_isToken (LaidOut.block_not_isToken hkind)] at ht
  exact (h.afterBlock p hp hkind t ht).breaks hfront.opens hle

include h in
theorem front_file : StatementFront text top .idle none 0 (byteLength text.toList) .start top :=
  ⟨⟨fun p hp => ⟨LaidOut.nodes_of_mem hp, h.placed p hp⟩, h.spans, .inl rfl, isBoundary_zero _,
    Nat.zero_le _⟩, rfl, fun _ => h.file.1, h.file.2, fun _ _ => .inr rfl⟩

/-- What goes on with a statement is a semicolon, or comes after one. -/
theorem of_accepts (haccepts : pending.accepts (.ofText text) c p = true) :
    compoundSymbol? p.kind = none ∧ (!pending.separated) = (p.kind == ";") := by
  have hnonempty : pending.parts ≠ [] := by
    intro hnil
    simp [Pending.accepts, hnil] at haccepts
  simp only [Pending.accepts, List.isEmpty_iff, if_neg hnonempty] at haccepts
  cases hseparated : pending.separated with
  | true =>
    simp only [hseparated, if_true, Bool.and_eq_true, Option.isNone_iff_eq_none,
      bne_iff_ne] at haccepts
    exact ⟨haccepts.1.1, by simpa using haccepts.1.2⟩
  | false =>
    have hkind : p.kind = ";" := by simpa [hseparated] using haccepts
    exact ⟨by rw [hkind]; decide, by rw [hkind]; decide⟩

/-- A semicolon after a statement is always taken into it. -/
theorem ne_semicolon_of_not_accepts {q : Construct} (htracks : Tracks top pending c (some p))
    (hsep : Separates text p q) (haccepts : pending.accepts (.ofText text) c q = false) :
    q.kind ≠ ";" := by
  obtain ⟨hne, hseparated, -⟩ := htracks
  intro hq
  rw [Separates, if_pos hq] at hsep
  have hp : (p.kind == ";") = false := by simpa using hsep.1
  simp [Pending.accepts, hne, hseparated, hp, hq] at haccepts

include h

/-- A statement that is not taken into the one under way starts after a line break. -/
theorem breaks_of_not_accepts {q : Construct} (hq : q ∈ nodesOfAll top)
    (htracks : Tracks top pending c (some p)) (hc : IsBoundary text.toList c.offset)
    (hsep : Separates text p q) (haccepts : pending.accepts (.ofText text) c q = false) :
    ∀ t ∈ q.tokens.head?, Breaks text c.offset t.start := by
  intro t ht
  have hqk := ne_semicolon_of_not_accepts htracks hsep haccepts
  obtain ⟨hne, hseparated, last, -, -, hoffset, hle⟩ := htracks
  have hmem : t ∈ q.tokens := List.mem_of_head? ht
  have htop := LaidOut.token_mem hq hmem
  have hstart := ((h.spans_node hq).2 t hmem).1
  obtain ⟨hboundary, hstop⟩ := h.boundaries (LaidOut.mem_nodes_of_token htop)
  rw [Separates, if_neg hqk] at hsep
  rcases hsep with ⟨hpk, hsimple⟩ | hbreak
  · -- The line breaks before the statement, which does not start with the line feed itself.
    have hcurrent : c.onCurrentLine (.ofText text) q.start = false := by
      simpa [Pending.accepts, hne, hseparated, hpk, hsimple, hqk] using haccepts
    unfold Cursor.onCurrentLine at hcurrent
    split at hcurrent
    · cases hcurrent
    · next feed hfeed =>
      simp only [decide_eq_false_iff_not, Nat.not_lt] at hcurrent
      refine breaks_of_lineBreak? hc hfeed hboundary (Nat.lt_of_le_of_ne (hcurrent.trans hstart) ?_)
      rintro rfl
      exact (h.word t htop).2.1 (head?_slice_lineBreak hc hfeed hstop (h.token_lt htop))
  · exact hbreak.of_le hc (by omega) hboundary hstart

/-- The line of the statement under way breaks before whatever is not taken into it. -/
theorem StatementFront.breaks (hfront : StatementFront text top pending prev lo next c parts)
    (haccepts : ∀ p ∈ parts.head?, pending.accepts (.ofText text) c p = false) (hprev : prev ≠ none) :
    Breaks text c.offset (firstStart (tokensOfAll parts) next) ∨
      firstStart (tokensOfAll parts) next = byteLength text.toList := by
  obtain ⟨q, rfl⟩ := Option.ne_none_iff_exists'.mp hprev
  cases parts with
  | nil =>
    obtain ⟨-, -, t, hlast, -, hoffset, -⟩ := hfront.tracks
    rw [hoffset]
    exact hfront.last t (by simpa [tokensOfAll] using hlast)
  | cons p rest =>
    obtain ⟨hp, hplaced, -⟩ := hfront.toFront.cons
    have hsep : Separates text q p := (List.isChain_cons_cons.mp hfront.separates).1
    obtain ⟨t, ht⟩ := Option.isSome_iff_exists.mp
      (List.isSome_head?.mpr (h.full p hp (ne_block_of_body hplaced)))
    have hstart : firstStart (tokensOfAll (p :: rest)) next = t.start := by
      rw [tokensOfAll, firstStart_append, firstStart, ht]
      rfl
    rw [hstart]
    exact .inl (breaks_of_not_accepts h hp hfront.tracks hfront.ready.1 hsep (haccepts p rfl) t ht)

omit h in
theorem StatementFront.closing (hfront : StatementFront text top pending prev lo next c parts)
    (hbreaks : prev ≠ none → Breaks text c.offset (firstStart (tokensOfAll parts) next) ∨
      firstStart (tokensOfAll parts) next = byteLength text.toList) :
    ∃ leaves, Shape.tokensOfAll (pending.close (.ofText text) c).1 =
        Shape.tokensOfAll pending.parts ++ leaves ∧
      Reaches text c leaves (pending.close (.ofText text) c).2 []
        (firstStart (tokensOfAll parts) next) ∧
      (prev = none → Leaf.TokenFirst leaves) := by
  cases prev with
  | none =>
    have hnil : pending.parts = [] := hfront.tracks
    rw [Pending.close, hnil]
    exact ⟨[], rfl, .nil hfront.ready, fun _ => by simp [Leaf.TokenFirst]⟩
  | some p =>
    rw [Pending.close, if_neg (by simpa using hfront.tracks.1)]
    refine ⟨[(c.takeNewline (.ofText text)).1], ?_,
      reaches_newline hfront.ready.1 (hbreaks (by simp)), by simp⟩
    simp [Shape.tokensOfAll, Shape.tokens]

variable (hfront : StatementFront text top pending prev lo next c (p :: rest))
include hfront

theorem StatementFront.last_cons : ∀ t ∈ (tokensOfAll (p :: rest)).getLast?,
    Breaks text t.stop next ∨ next = byteLength text.toList := by
  obtain ⟨hp, hplaced, -⟩ := hfront.toFront.cons
  have hne := h.full p hp (ne_block_of_body hplaced)
  intro t ht
  refine hfront.last t ?_
  rw [tokensOfAll_eq_flatMap, List.flatMap_append, ← tokensOfAll_eq_flatMap,
    ← tokensOfAll_eq_flatMap, List.getLast?_append_of_ne_nil _ (by simp [tokensOfAll, hne])]
  exact ht

/-- What is not taken into the statement under way starts another one. -/
theorem StatementFront.close (haccepts : pending.accepts (.ofText text) c p = false) :
    ∃ leaves, Shape.tokensOfAll (pending.close (.ofText text) c).1 =
        Shape.tokensOfAll pending.parts ++ leaves ∧
      Reaches text c leaves (pending.close (.ofText text) c).2 []
        (firstStart (tokensOfAll (p :: rest)) next) ∧
      (prev = none → Leaf.TokenFirst leaves) ∧
      StatementFront text top .idle none lo next (pending.close (.ofText text) c).2 (p :: rest) := by
  obtain ⟨leaves, heq, hreaches, hled⟩ := hfront.closing
    (hfront.breaks h (by simpa using haccepts))
  refine ⟨leaves, heq, hreaches, hled, { hfront.toFront with ready := hreaches.ready }, rfl, ?_,
    hfront.separates.right_of_append, hfront.last_cons h⟩
  rintro - q ⟨rfl⟩
  cases prev with
  | none => exact hfront.first rfl p rfl
  | some q =>
    exact ne_semicolon_of_not_accepts hfront.tracks (List.isChain_cons_cons.mp hfront.separates).1
      haccepts

theorem StatementFront.step_simple (hfaithful : Faithful text top p)
    (hsymbol : compoundSymbol? p.kind = none) (pending' : Pending) (hnonempty : pending'.parts ≠ [])
    (hseparated : pending'.separated = (p.kind == ";")) :
    Step text top .body next c (expression (.ofText text) c p).1.tokens
        (expression (.ofText text) c p).2 p rest ∧
      StatementFront text top pending' (some p) p.stop next (expression (.ofText text) c p).2
        rest := by
  obtain ⟨-, hplaced, -⟩ := hfront.toFront.cons
  have hkind : isExpression p.kind = true := by
    simpa [Site.admits, hsymbol] using admits_of_isPlaced hplaced
  obtain ⟨hstep, hbehind⟩ := hfront.toFront.expression h hfaithful hkind
  exact ⟨hstep, hstep.front, ⟨hnonempty, hseparated, hbehind⟩, by simp,
    hfront.separates.right_of_append, hfront.last_cons h⟩

theorem StatementFront.step_compound (hfaithful : Faithful text top p) {symbol : Symbol}
    (hsymbol : compoundSymbol? p.kind = some symbol) :
    Step text top .body next c (compound (.ofText text) c symbol .asyncStmt p).1.tokens
        (compound (.ofText text) c symbol .asyncStmt p).2 p rest ∧
      StatementFront text top .idle none p.stop next
        (compound (.ofText text) c symbol .asyncStmt p).2 rest := by
  obtain ⟨hp, hplaced, -⟩ := hfront.toFront.cons
  have hstep := hfront.toFront.reads h (hfaithful.compound hp hplaced symbol .asyncStmt hsymbol)
  have htail : (p :: rest).IsChain (Separates text) := hfront.separates.right_of_append
  refine ⟨hstep, hstep.front, rfl, fun _ q hq hsemi => ?_, htail.tail, fun t ht => ?_⟩
  · obtain ⟨more, rfl⟩ := List.head?_eq_some_iff.mp hq
    have hsep : Separates text p q := (List.isChain_cons_cons.mp htail).1
    rw [Separates, if_pos hsemi, hsymbol] at hsep
    exact absurd hsep.2 (by simp)
  · refine hfront.last_cons h t ?_
    rw [tokensOfAll, List.getLast?_append_of_ne_nil _ (by rintro hnil; simp [hnil] at ht)]
    exact ht

end Statements

end Parse

end LineScope
