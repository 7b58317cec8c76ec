import LineScope.Proofs.Parse.Steps

/-!
# Lowering keeps the tokens

Each routine of the lowering reads the tokens of what it is given, and nothing else but layout. So
each token becomes a leaf of its own.
-/
namespace LineScope

namespace Parse

open Text Construct

section Lists

variable {text : String} {top parts : List Construct} {lo next : Nat} {c : Cursor}
  (h : LaidOut text top) (hparts : ∀ p ∈ parts, Faithful text top p)
include h hparts

theorem expressions_lexes {hi : Nat} (hamong : Among top .expression parts)
    (hascend : ascend lo hi parts = true) :
    Lexes text (fun c => (Shape.tokensOfAll (expressions (.ofText text) c parts).1,
      (expressions (.ofText text) c parts).2)) (tokensOfAll parts) := by
  induction parts generalizing lo with
  | nil =>
    intro c hc
    simp only [expressions]
    exact ⟨.nil ⟨hc.1, Nat.le_refl _⟩, rfl, by simp [Leaf.TokenFirst, Shape.tokensOfAll]⟩
  | cons p rest ih =>
    rw [List.forall_mem_cons] at hparts
    rw [among_cons] at hamong
    rw [ascend, Bool.and_eq_true, decide_eq_true_eq] at hascend
    have hblock := ne_block_of_isExpression (admits_of_isPlaced hamong.1.2)
    intro c hc
    obtain ⟨hfirst, hled, t, hlast, -, hoffset, -⟩ :=
      (hparts.1.expression hamong.1.1 hamong.1.2).stop h hamong.1.1 hblock hc
    simp only at hfirst hled hoffset
    generalize hc1 : (expression (.ofText text) c p).2 = c1 at hfirst hoffset
    have hready : Ready text c1 (firstStart (tokensOfAll rest) c1.offset) :=
      ⟨hfirst.ready.1, le_firstStart (fun t ht => hfirst.ready.2.trans
        ((spans_among h hamong.2 hascend.2).2 t ht).1) (Nat.le_refl _)⟩
    obtain ⟨hrest, hend, hled'⟩ := ih hparts.2 hamong.2 hascend.2 c1 hready
    simp only [expressions, Shape.tokensOfAll, tokensOfAll, hc1]
    refine ⟨hfirst.append hrest, ?_, hled.append hled'⟩
    have hstop : lastStop c.offset p.tokens = c1.offset := by simp [lastStop, hlast, hoffset]
    rw [lastStop_append, hstop]
    exact hend

theorem matchCases_reaches (hfront : Front text top .cases lo next c parts) :
    Reaches text c (Shape.tokensOfAll (matchCases (.ofText text) c parts).1)
        (matchCases (.ofText text) c parts).2 (tokensOfAll parts) next ∧
      Leaf.TokenFirst (Shape.tokensOfAll (matchCases (.ofText text) c parts).1) := by
  induction parts generalizing lo c with
  | nil =>
    rw [matchCases]
    exact ⟨.nil hfront.ready, by simp [Leaf.TokenFirst, Shape.tokensOfAll]⟩
  | cons p rest ih =>
    rw [List.forall_mem_cons] at hparts
    obtain ⟨hp, hplaced, -⟩ := hfront.cons
    have hkind : p.kind = "case_clause" := beq_iff_eq.mp (admits_of_isPlaced hplaced)
    have htoken := h.parted_not_isToken hp (by rw [hkind]; decide)
    have hstep := hfront.reads h (hparts.1.clauses hp htoken (among_parts hp hplaced htoken))
    obtain ⟨hrest, hled⟩ := ih hparts.2 hstep.front
    simp only [matchCases_of_case hkind, Shape.tokensOfAll, Shape.tokens, tokensOfAll]
    exact ⟨hstep.reaches.append hrest, hstep.first.append hled⟩

theorem definitions_reaches (hkinds : ∀ p ∈ parts, p.kind ≠ "decorator")
    (hfront : Front text top .body lo next c parts) :
    Reaches text c (Shape.tokensOfAll (definitions (.ofText text) c parts).1)
        (definitions (.ofText text) c parts).2 (tokensOfAll parts) next ∧
      Leaf.TokenFirst (Shape.tokensOfAll (definitions (.ofText text) c parts).1) := by
  induction parts generalizing lo c with
  | nil =>
    rw [definitions]
    exact ⟨.nil hfront.ready, by simp [Leaf.TokenFirst, Shape.tokensOfAll]⟩
  | cons p rest ih =>
    rw [List.forall_mem_cons] at hparts hkinds
    obtain ⟨hp, hplaced, -⟩ := hfront.cons
    cases hsymbol : compoundSymbol? p.kind with
    | some symbol =>
      have hstep := hfront.reads h (hparts.1.compound hp hplaced symbol .asyncFuncdef hsymbol)
      obtain ⟨hrest, hled⟩ := ih hparts.2 hkinds.2 hstep.front
      simp only [definitions, if_neg hkinds.1, hsymbol, Shape.tokensOfAll, tokensOfAll]
      exact ⟨hstep.reaches.append hrest, hstep.first.append hled⟩
    | none =>
      have hkind : isExpression p.kind = true := by
        simpa [Site.admits, hsymbol] using admits_of_isPlaced hplaced
      obtain ⟨hstep, -⟩ := hfront.expression h hparts.1 hkind
      obtain ⟨hrest, hled⟩ := ih hparts.2 hkinds.2 hstep.front
      simp only [definitions, if_neg hkinds.1, hsymbol, Shape.tokensOfAll, tokensOfAll]
      exact ⟨hstep.reaches.append hrest, hstep.first.append hled⟩

theorem decorators_reaches (hkinds : ∀ p ∈ parts, p.kind = "decorator")
    (hfront : Front text top .body lo next c parts) :
    Reaches text c (Shape.tokensOfAll (decorators (.ofText text) c parts).1)
        (decorators (.ofText text) c parts).2 (tokensOfAll parts) next ∧
      Leaf.TokenFirst (Shape.tokensOfAll (decorators (.ofText text) c parts).1) := by
  induction parts generalizing lo c with
  | nil =>
    rw [decorators]
    exact ⟨.nil hfront.ready, by simp [Leaf.TokenFirst, Shape.tokensOfAll]⟩
  | cons p rest ih =>
    rw [List.forall_mem_cons] at hparts hkinds
    obtain ⟨hp, hplaced, -, hamong, hspans⟩ := hfront.cons
    have hblock : p.kind ≠ "block" := by rw [hkinds.1]; decide
    have htoken := h.parted_not_isToken hp (by rw [hkinds.1]; decide)
    have hbelow := among_parts hp hplaced htoken
    rw [hkinds.1] at hbelow
    have hlexes := hparts.1.expressions hp hbelow
    rw [← tokens_of_not_isToken htoken] at hlexes
    have hled := (hfront.lexes h hlexes hblock).1.first_append h hp hblock
    obtain ⟨hfirst, -⟩ := hlexes.stop h hp hblock hfront.ready
    have hnewline := newline_after h hfirst.ready (h.afterDecorator p hp hkinds.1) hamong hspans
      hfront.opens
    obtain ⟨hrest, -⟩ := ih hparts.2 hkinds.2 ⟨hamong, hspans, hfront.opens, hnewline.ready⟩
    simp only [decorators_of_decorator hkinds.1, Shape.tokensOfAll, Shape.tokens,
      Shape.tokensOfAll_append, List.append_nil, tokensOfAll]
    refine ⟨(hfirst.layout hnewline).append hrest, ?_⟩
    rw [List.append_assoc]
    exact hled _

theorem matchParts_reaches {prev : Option Construct}
    (hfront : MatchFront text top prev lo next c parts) :
    Reaches text c (Shape.tokensOfAll (matchParts (.ofText text) c parts).1)
        (matchParts (.ofText text) c parts).2 (tokensOfAll parts) next ∧
      (prev = none → Leaf.TokenFirst (Shape.tokensOfAll (matchParts (.ofText text) c parts).1)) := by
  induction parts generalizing lo prev c with
  | nil =>
    rw [matchParts]
    exact ⟨.nil hfront.ready, fun _ => by simp [Leaf.TokenFirst, Shape.tokensOfAll]⟩
  | cons p rest ih =>
    rw [List.forall_mem_cons] at hparts
    by_cases hkind : p.kind = "block"
    · have hsuite := hfront.suite h hkind hparts.1
      obtain ⟨hrest, -⟩ := ih hparts.2 (hfront.step_cases h hkind hparts.1).2
      have hprev : prev ≠ none := by
        have hblocks := hfront.blocks
        rw [blocksHeaded, Bool.and_eq_true] at hblocks
        rintro rfl
        simp [hkind] at hblocks
      simp only [matchParts_of_block hkind, Shape.tokensOfAll, Shape.tokens,
        Shape.tokensOfAll_append, List.cons_append, tokensOfAll]
      refine ⟨?_, fun hnone => absurd hnone hprev⟩
      simpa only [List.cons_append, List.append_assoc, List.nil_append] using hsuite.append hrest
    · obtain ⟨hp, -⟩ := hfront.toFront.cons
      obtain ⟨hstep, hnext⟩ := hfront.step_header h hparts.1 hkind
      obtain ⟨hrest, -⟩ := ih hparts.2 hnext
      simp only [matchParts_of_header hkind, Shape.tokensOfAll, tokensOfAll]
      exact ⟨hstep.reaches.append hrest, fun _ => hstep.first_append h hp hkind _⟩

omit hparts in
theorem block_reaches {headed : Bool} {p : Construct} {rest : List Construct}
    (hfront : ClauseFront text top headed lo next c (p :: rest)) (hfaithful : Faithful text top p)
    (hkind : p.kind = "block")
    (hrest : ∀ c', ClauseFront text top false p.stop next c' rest →
      Reaches text c' (Shape.tokensOfAll (clauses (.ofText text) c' rest).1)
        (clauses (.ofText text) c' rest).2 (tokensOfAll rest) next) :
    Reaches text c (Shape.tokensOfAll (clauses (.ofText text) c (p :: rest)).1)
      (clauses (.ofText text) c (p :: rest)).2 (tokensOfAll (p :: rest)) next := by
  cases hfirst : p.parts.head? with
  | none =>
    have hempty := List.head?_eq_none_iff.mp hfirst
    obtain ⟨hnil, hleft⟩ := hfront.step_empty hkind hempty
    rw [clauses_of_empty hkind hempty, tokensOfAll, hnil]
    exact hrest c hleft
  | some first =>
    by_cases hline : (Source.ofText text).index.lineOf first.start =
        (Source.ofText text).index.lineOf (c.offset - 1)
    · obtain ⟨hstep, hleft⟩ := hfront.step_body h hkind hfaithful hfront.ready
      simp only [clauses_of_inline hkind hfirst hline, Shape.tokensOfAll_append, tokensOfAll]
      exact hstep.reaches.append (hrest _ hleft)
    · have hsuite := hfront.suite h hkind hfirst hline hfaithful
      have hready := (hfront.newline_before_block h hkind hfirst hline).ready
      obtain ⟨-, hleft⟩ := hfront.step_body h hkind hfaithful hready
      simp only [clauses_of_suite hkind hfirst hline, Shape.tokensOfAll, Shape.tokens,
        Shape.tokensOfAll_append, List.cons_append, List.append_nil, tokensOfAll]
      exact hsuite.append (hrest _ hleft)

theorem clauses_reaches {headed : Bool}
    (hfront : ClauseFront text top headed lo next c parts) :
    Reaches text c (Shape.tokensOfAll (clauses (.ofText text) c parts).1)
        (clauses (.ofText text) c parts).2 (tokensOfAll parts) next ∧
      (headed = false → Leaf.TokenFirst (Shape.tokensOfAll (clauses (.ofText text) c parts).1)) := by
  induction parts generalizing lo headed c with
  | nil =>
    rw [clauses]
    exact ⟨.nil hfront.ready, fun _ => by simp [Leaf.TokenFirst, Shape.tokensOfAll]⟩
  | cons p rest ih =>
    rw [List.forall_mem_cons] at hparts
    obtain ⟨hp, -⟩ := hfront.toFront.cons
    by_cases hkind : p.kind = "block"
    · refine ⟨block_reaches h hfront hparts.1 hkind fun c' hleft => (ih hparts.2 hleft).1, ?_⟩
      simp [hfront.blocks_cons.1 hkind]
    · cases hclause : isClause p.kind with
      | true =>
        obtain ⟨hstep, hleft⟩ := hfront.step_clause h hparts.1 hclause
        rw [clauses_of_isClause hclause, Shape.tokensOfAll_append, tokensOfAll]
        exact ⟨hstep.reaches.append (ih hparts.2 hleft).1, fun _ => hstep.first_append h hp hkind _⟩
      | false =>
        have hheader : p.isHeader = true := isHeader_iff.mpr ⟨hkind, hclause⟩
        obtain ⟨hstep, hleft⟩ := hfront.step_header h hparts.1 hheader
        rw [clauses_of_isHeader hheader, Shape.tokensOfAll, tokensOfAll]
        exact ⟨hstep.reaches.append (ih hparts.2 hleft).1, fun _ => hstep.first_append h hp hkind _⟩

/-- A run of statements is read whatever statement is under way. -/
theorem statements_reaches {pending : Pending} {prev : Option Construct}
    (hfront : StatementFront text top pending prev lo next c parts) :
    ∃ leaves, Shape.tokensOfAll (statements (.ofText text) c pending parts).1 =
        Shape.tokensOfAll pending.parts ++ leaves ∧
      Reaches text c leaves (statements (.ofText text) c pending parts).2 (tokensOfAll parts) next ∧
      (prev = none → Leaf.TokenFirst leaves) := by
  induction parts generalizing lo c pending prev with
  | nil =>
    rw [statements]
    exact hfront.closing (hfront.breaks h (by simp))
  | cons p rest ih =>
    rw [List.forall_mem_cons] at hparts
    obtain ⟨hp, hplaced, -⟩ := hfront.toFront.cons
    have hblock := ne_block_of_body hplaced
    rw [statements]
    cases haccepts : pending.accepts (.ofText text) c p with
    | true =>
      obtain ⟨hsymbol, hseparated⟩ := of_accepts haccepts
      obtain ⟨hstep, hleft⟩ := hfront.step_simple h hparts.1 hsymbol
        ⟨pending.parts ++ [(expression (.ofText text) c p).1], !pending.separated⟩ (by simp)
        hseparated
      obtain ⟨leaves, heq, hrest, -⟩ := ih hparts.2 hleft
      refine ⟨_, ?_, hstep.reaches.append hrest, fun _ => hstep.first_append h hp hblock _⟩
      simp only [if_true, heq, Shape.tokensOfAll_append, Shape.tokensOfAll, List.append_nil,
        List.append_assoc]
    | false =>
      obtain ⟨closing, hclosing, hclosed, hopening, hidle⟩ := hfront.close h haccepts
      simp only [Bool.false_eq_true, if_false]
      cases hsymbol : compoundSymbol? p.kind with
      | some symbol =>
        obtain ⟨hstep, hleft⟩ := hidle.step_compound h hparts.1 hsymbol
        obtain ⟨leaves, heq, hrest, -⟩ := ih hparts.2 hleft
        refine ⟨_, ?_, hclosed.append (hstep.reaches.append hrest),
          fun hprev => (hopening hprev).append (hstep.first_append h hp hblock _)⟩
        simp only [Shape.tokensOfAll_append, Shape.tokensOfAll, hclosing, heq,
          show Pending.idle.parts = [] from rfl, List.nil_append, List.append_assoc]
      | none =>
        have hkind : (p.kind == ";") = false := by simpa using hidle.first rfl p rfl
        obtain ⟨hstep, hleft⟩ := hidle.step_simple h hparts.1 hsymbol
          ⟨[(expression (.ofText text) (pending.close (.ofText text) c).2 p).1], false⟩
          (by simp) hkind.symm
        obtain ⟨leaves, heq, hrest, -⟩ := ih hparts.2 hleft
        refine ⟨_, ?_, hclosed.append (hstep.reaches.append hrest),
          fun hprev => (hopening hprev).append (hstep.first_append h hp hblock _)⟩
        simp only [Shape.tokensOfAll_append, heq, hclosing, Shape.tokensOfAll, List.append_nil,
          List.append_assoc]

end Lists

section Node

variable {text : String} {top : List Construct} (h : LaidOut text top) {kind : String}
  {start stop : Nat} {childless : Bool} {parts : List Construct}
  (hparts : ∀ p ∈ parts, Faithful text top p)
  (hp : .node kind start stop childless parts ∈ nodesOfAll top)
include h hparts hp

theorem expression_lexes
    (hplaced : isPlaced .expression (.node kind start stop childless parts) = true) :
    Lexes text (fun c =>
      ((expression (.ofText text) c (.node kind start stop childless parts)).1.tokens,
        (expression (.ofText text) c (.node kind start stop childless parts)).2))
      (Construct.tokens (.node kind start stop childless parts)) := by
  have hblock : kind ≠ "block" := ne_block_of_isExpression (admits_of_isPlaced hplaced)
  have htest : (childless || decide (kind = "string")) =
      isToken (.node kind start stop childless parts) := by
    have hne : (kind != "block") = true := by simpa using hblock
    rw [isToken, Construct.childless, Construct.kind, hne, Bool.and_true, Bool.or_comm]
    rfl
  cases htoken : isToken (.node kind start stop childless parts) with
  | true =>
    have htokens := tokens_of_isToken htoken
    have ht := LaidOut.token_mem hp (by rw [htokens]; exact List.mem_singleton_self _)
    have hlexes := token_lexes h ht (TokenKind.isLayout_eq_false (isOrdinary_tokenKind _ _)) (.inl rfl)
    rw [htokens]
    simp only [expression, htest, htoken, if_true]
    exact hlexes
  | false =>
    rw [tokens_of_not_isToken htoken]
    simp only [expression, htest, htoken, Bool.false_eq_true, if_false]
    exact expressions_lexes h hparts (among_parts hp hplaced htoken) (h.nested _ hp)

end Node

section Compound

variable {text : String} {top : List Construct} {p : Construct} {next : Nat} {c : Cursor}
  (h : LaidOut text top) (hparts : ∀ q ∈ p.parts, Faithful text top q)
include h hparts

theorem decorated_reaches (hfirst : decoratorsFirst p.parts = true)
    (hfront : Front text top .body p.start next c p.parts) :
    Reaches text c (Shape.tokensOfAll (decorators (.ofText text) c p.parts).1 ++ Shape.tokensOfAll
        (definitions (.ofText text) (decorators (.ofText text) c p.parts).2 p.parts).1)
      (definitions (.ofText text) (decorators (.ofText text) c p.parts).2 p.parts).2
      (tokensOfAll p.parts) next ∧
    Leaf.TokenFirst (Shape.tokensOfAll (decorators (.ofText text) c p.parts).1 ++ Shape.tokensOfAll
      (definitions (.ofText text) (decorators (.ofText text) c p.parts).2 p.parts).1) := by
  obtain ⟨heads, bodies, hsplit, hheads, hbodies⟩ := exists_decorators hfirst
  rw [hsplit, List.forall_mem_append] at hparts
  rw [hsplit] at hfront ⊢
  rw [tokensOfAll_append, decorators_append hbodies, definitions_append hheads]
  obtain ⟨mid, hleft, hright⟩ := hfront.append h
  obtain ⟨hdecorators, hled⟩ := decorators_reaches h hparts.1 hheads hleft
  obtain ⟨hdefinitions, hled'⟩ :=
    definitions_reaches h hparts.2 hbodies (hright _ hdecorators.ready)
  exact ⟨hdecorators.append hdefinitions, hled.append hled'⟩

theorem block_statement_reaches {symbol : Symbol} (wrapper : Symbol) (hdecorated : symbol ≠ .decorated)
    (hmatch : symbol ≠ .matchStmt) (hfront : ClauseFront text top false p.start next c p.parts) :
    Reaches text c (compound (.ofText text) c symbol wrapper p).1.tokens
        (compound (.ofText text) c symbol wrapper p).2 (tokensOfAll p.parts) next ∧
      Leaf.TokenFirst (compound (.ofText text) c symbol wrapper p).1.tokens := by
  by_cases hasync : ∃ first rest, p.parts = first :: rest ∧ first.kind = "async"
  · obtain ⟨first, rest, hcons, hasync⟩ := hasync
    rw [hcons] at hfront hparts
    obtain ⟨hstep, hleft⟩ := hfront.step_async h hasync
    obtain ⟨hrest, -⟩ := clauses_reaches h (List.forall_mem_cons.mp hparts).2 hleft
    simp only [compound_of_async hdecorated hmatch hcons hasync, hcons, Shape.tokens,
      Shape.tokensOfAll, tokensOfAll, List.append_nil]
    exact ⟨hstep.reaches.append hrest, hstep.first.append_right (by simp) _⟩
  · have hfirst : ∀ first ∈ p.parts.head?, first.kind ≠ "async" := by
      intro first hfirst heq
      obtain ⟨rest, hcons⟩ := List.head?_eq_some_iff.mp hfirst
      exact hasync ⟨first, rest, hcons, heq⟩
    obtain ⟨hreaches, hled⟩ := clauses_reaches h hparts hfront
    simp only [compound_of_clauses hdecorated hmatch hfirst, Shape.tokens]
    exact ⟨hreaches, hled rfl⟩

theorem compound_reads (hp : p ∈ nodesOfAll top) (hplaced : p.isPlaced .body = true)
    (symbol wrapper : Symbol) (hsymbol : compoundSymbol? p.kind = some symbol) :
    Reads text top (fun c => ((compound (.ofText text) c symbol wrapper p).1.tokens,
      (compound (.ofText text) c symbol wrapper p).2)) p.tokens p.stop := by
  have htoken := h.parted_not_isToken hp (needsHeader_of_compoundSymbol? hsymbol)
  obtain ⟨hdecorator, hsubject⟩ := kind_of_compoundSymbol? hsymbol
  intro next hopens hnext c hc
  have hfront := front_parts h hp hplaced htoken hopens hnext hc
  rw [tokens_of_not_isToken htoken]
  by_cases hdecorated : symbol = .decorated
  · subst hdecorated
    simp only [Site.below, hsymbol] at hfront
    simp only [compound_decorated, Shape.tokens, Shape.tokensOfAll_append, tokensOfAll_stacked]
    exact decorated_reaches h hparts (h.decorators p hp (hdecorator rfl)) hfront
  by_cases hmatch : symbol = .matchStmt
  · subst hmatch
    simp only [Site.below, hsymbol] at hfront
    simp only [compound_matchStmt, Shape.tokens]
    obtain ⟨hreaches, hled⟩ := matchParts_reaches h hparts (hfront.subject h hp (hsubject rfl))
    exact ⟨hreaches, hled rfl⟩
  · rw [below_body hsymbol hdecorated hmatch] at hfront
    exact block_statement_reaches h hparts wrapper hdecorated hmatch (hfront.clauses h hp)

end Compound

theorem faithful {text : String} {top : List Construct} (h : LaidOut text top) (p : Construct) :
    Faithful text top p := by
  induction p with
  | node kind start stop childless parts ih =>
    refine ⟨expression_lexes h ih, fun hp hamong => expressions_lexes h ih hamong (h.nested _ hp),
      compound_reads h ih, ?_, ?_, ?_⟩
    · intro hp hkind hamong next hopens hnext c hc
      rw [tokens_of_not_isToken (LaidOut.block_not_isToken hkind)] at hc ⊢
      have hfront : Front text top .body start next c parts :=
        ⟨hamong, ascend_mono (h.nested _ hp) hnext, hopens, hc⟩
      obtain ⟨leaves, heq, hreaches, hled⟩ := statements_reaches h ih (hfront.statements h hp hkind)
      simp only [Construct.parts, heq]
      exact ⟨hreaches, hled rfl⟩
    · intro hp htoken hamong next hopens hnext c hc
      rw [tokens_of_not_isToken htoken] at hc ⊢
      have hfront : Front text top .clause start next c parts :=
        ⟨hamong, ascend_mono (h.nested _ hp) hnext, hopens, hc⟩
      obtain ⟨hreaches, hled⟩ := clauses_reaches h ih (hfront.clauses h hp)
      exact ⟨hreaches, hled rfl⟩
    · intro hp hkind hamong next hopens hnext c hc
      rw [tokens_of_not_isToken (LaidOut.block_not_isToken hkind)] at hc ⊢
      exact matchCases_reaches h ih ⟨hamong, ascend_mono (h.nested _ hp) hnext, hopens, hc⟩

theorem file_reaches {text : String} {top : List Construct} (h : LaidOut text top) :
    Reaches text .start (Shape.tokensOfAll (statements (.ofText text) .start .idle top).1)
      (statements (.ofText text) .start .idle top).2 (tokensOfAll top) (byteLength text.toList) := by
  obtain ⟨leaves, heq, hreaches, -⟩ :=
    statements_reaches h (fun p _ => faithful h p) (front_file h)
  rw [heq]
  exact hreaches

/-- A whole file is read to the end of its text. -/
theorem lower_reaches (text : String) (report : Report) (h : LaidOut text report.parts) :
    ∃ c, Reaches text .start (Shape.tokensOfAll (lower text report)) c (tokensOfAll report.parts)
      (byteLength text.toList) := by
  have hstatements := file_reaches h
  have hall := hstatements.layout (reaches_end hstatements.ready.1)
  rw [lower, Shape.tokensOfAll_append]
  exact ⟨_, hall⟩

/-- The leaves of a lowered file that are not layout are its tokens, in order. -/
theorem lower_tokens (text : String) (report : Report) (h : LaidOut text report.parts) :
    List.Forall₂ (IsLeafOf text)
      ((Leaf.positions 0 ((Tree.ofShapes .fileInput (lower text report)).tokens [rootId])).filter
        fun entry => !entry.2.kind.isLayout)
      (tokensOfAll report.parts) := by
  obtain ⟨c, hreaches⟩ := lower_reaches text report h
  rw [Tree.tokens_ofShapes]
  exact hreaches.pairs

/-- A decorated `async` function on one line, and a match with a comment in it. -/
theorem lower_tokens_decorated :
    let text := "@a\nasync def f(): pass\nmatch x:\n  # c\n  case 1: y; z\n"
    let report : Report :=
      .node ⟨"module", 0, 53, false, false, false, false⟩
        [.node ⟨"decorated_definition", 0, 22, false, false, false, false⟩
            [.node ⟨"decorator", 0, 2, false, false, false, false⟩
                [.node ⟨"@", 0, 1, false, false, false, false⟩ [],
                  .node ⟨"identifier", 1, 2, false, false, false, false⟩ []],
              .node ⟨"function_definition", 3, 22, false, false, false, false⟩
                [.node ⟨"async", 3, 8, false, false, false, false⟩ [],
                  .node ⟨"def", 9, 12, false, false, false, false⟩ [],
                  .node ⟨"identifier", 13, 14, false, false, false, false⟩ [],
                  .node ⟨"parameters", 14, 16, false, false, false, false⟩
                    [.node ⟨"(", 14, 15, false, false, false, false⟩ [],
                      .node ⟨")", 15, 16, false, false, false, false⟩ []],
                  .node ⟨":", 16, 17, false, false, false, false⟩ [],
                  .node ⟨"block", 18, 22, false, false, false, false⟩
                    [.node ⟨"pass_statement", 18, 22, false, false, false, false⟩
                        [.node ⟨"pass", 18, 22, false, false, false, false⟩ []]]]],
          .node ⟨"match_statement", 23, 52, false, false, false, false⟩
            [.node ⟨"match", 23, 28, false, false, false, false⟩ [],
              .node ⟨"identifier", 29, 30, false, false, false, false⟩ [],
              .node ⟨":", 30, 31, false, false, false, false⟩ [],
              .node ⟨"block", 31, 52, false, false, false, false⟩
                [.node ⟨"comment", 34, 37, true, false, false, false⟩ [],
                  .node ⟨"case_clause", 40, 52, false, false, false, false⟩
                    [.node ⟨"case", 40, 44, false, false, false, false⟩ [],
                      .node ⟨"case_pattern", 45, 46, false, false, false, false⟩
                        [.node ⟨"integer", 45, 46, false, false, false, false⟩ []],
                      .node ⟨":", 46, 47, false, false, false, false⟩ [],
                      .node ⟨"block", 48, 52, false, false, false, false⟩
                        [.node ⟨"expression_statement", 48, 49, false, false, false, false⟩
                            [.node ⟨"identifier", 48, 49, false, false, false, false⟩ []],
                          .node ⟨";", 49, 50, false, false, false, false⟩ [],
                          .node ⟨"expression_statement", 51, 52, false, false, false, false⟩
                            [.node ⟨"identifier", 51, 52, false, false, false, false⟩ []]]]]]]
    LaidOut text report.parts ∧ List.Forall₂ (IsLeafOf text)
      ((Leaf.positions 0 ((Tree.ofShapes .fileInput (lower text report)).tokens [rootId])).filter
        fun entry => !entry.2.kind.isLayout)
      (tokensOfAll report.parts) := by
  intro text report
  have h : LaidOut text report.parts := by constructor <;> decide +kernel
  exact ⟨h, lower_tokens text report h⟩

end Parse

end LineScope
