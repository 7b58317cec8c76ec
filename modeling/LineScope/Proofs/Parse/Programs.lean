import LineScope.Proofs.Collapse.ClearHeaders
import LineScope.Proofs.Parse.Numbering
import LineScope.Proofs.Parse.StatementForm

/-!
# Lowered files are programs

Where no statement lacks a header, a body or what its decorators stand in front of, lowering makes a
program of a file: its shapes are those of statements as collapsing knows them.
-/
namespace LineScope

namespace Grammar

def IsLine (s : Shape) : Prop := ∃ line : Line, line.shape = s ∧ line.Wf

def IsStatement (s : Shape) : Prop :=
  ∃ statement : Statement, statement.shape = s ∧ statement.Wf ∧ statement.Bodied ∧
    statement.WellDecorated

inductive IsPiece : List Shape → Prop
  | inline {header body : List Shape} (isHeader : IsHeader header) (nonempty : body ≠ [])
      (lines : ∀ s ∈ body, IsLine s) : IsPiece (header ++ body)
  | suite {header body : List Shape} {newline indent dedent : Leaf} (isHeader : IsHeader header)
      (breaks : newline.kind = .newline) (opens : indent.kind = .indent) (nonempty : body ≠ [])
      (statements : ∀ s ∈ body, IsStatement s) (closes : dedent.kind = .dedent) :
      IsPiece (header ++ [suiteShape newline indent body dedent])

theorem IsLine.isStatement {s : Shape} (h : IsLine s) : IsStatement s := by
  obtain ⟨line, hshape, hwf⟩ := h
  exact ⟨.line line, hshape, hwf, trivial, trivial⟩

theorem isLine_simple {parts : List Shape} {newline : Leaf} (h : IsHeader parts)
    (hnewline : newline.kind = .newline) : IsLine (.node .simpleStmt (parts ++ [.leaf newline])) :=
  ⟨.simple parts newline, rfl, h, hnewline⟩

theorem exists_lines {shapes : List Shape} (h : ∀ s ∈ shapes, IsLine s) :
    ∃ lines : List Line, lines.map Line.shape = shapes ∧ ∀ line ∈ lines, line.Wf := by
  induction shapes with
  | nil => exact ⟨[], rfl, by simp⟩
  | cons s rest ih =>
    rw [List.forall_mem_cons] at h
    obtain ⟨line, rfl, hwf⟩ := h.1
    obtain ⟨lines, rfl, hlines⟩ := ih h.2
    exact ⟨line :: lines, rfl, List.forall_mem_cons.mpr ⟨hwf, hlines⟩⟩

theorem exists_block {shapes : List Shape} (h : ∀ s ∈ shapes, IsStatement s) :
    ∃ code : Block, code.shapes = shapes ∧ code.Wf ∧ code.Bodied ∧ code.WellDecorated := by
  induction shapes with
  | nil => exact ⟨.nil, rfl, trivial, trivial, trivial⟩
  | cons s rest ih =>
    rw [List.forall_mem_cons] at h
    obtain ⟨statement, rfl, hwf, hbodied, hdecorated⟩ := h.1
    obtain ⟨code, rfl, hwf', hbodied', hdecorated'⟩ := ih h.2
    exact ⟨.cons statement code, rfl, ⟨hwf, hwf'⟩, ⟨hbodied, hbodied'⟩, hdecorated, hdecorated'⟩

theorem exists_body {shapes : List Shape} (hne : shapes ≠ []) (h : ∀ s ∈ shapes, IsStatement s) :
    ∃ body : Block, body.shapes = shapes ∧ body.Wf ∧ (body ≠ .nil ∧ body.Bodied) ∧
      body.WellDecorated := by
  obtain ⟨body, hshapes, hwf, hbodied, hdecorated⟩ := exists_block h
  refine ⟨body, hshapes, hwf, ⟨?_, hbodied⟩, hdecorated⟩
  rintro rfl
  exact hne hshapes.symm

theorem IsPiece.exists_last {piece : List Shape} (h : IsPiece piece) :
    ∃ clauses : Clauses, clauses.shapes = piece ∧ clauses.Wf ∧ clauses.Bodied ∧
      (clauses.hasSuite = true → clauses.endsInline = false) := by
  cases h with
  | @inline header body hheader hne hlines =>
    obtain ⟨lines, rfl, hwf⟩ := exists_lines hlines
    exact ⟨.inline header lines, rfl, ⟨hheader, by simpa using hne, hwf⟩, trivial, nofun⟩
  | @suite header body newline indent dedent hheader hbreaks hopens hne hstatements hcloses =>
    obtain ⟨code, rfl, hwf, hbodied, -⟩ := exists_body hne hstatements
    exact ⟨.suite header newline indent code dedent, rfl, ⟨hheader, hbreaks, hopens, hwf, hcloses⟩,
      hbodied, fun _ => rfl⟩

theorem IsPiece.exists_cons {piece : List Shape} (h : IsPiece piece) {rest : Clauses}
    (hwf : rest.Wf) (hbodied : rest.Bodied) :
    ∃ clauses : Clauses, clauses.shapes = piece ++ rest.shapes ∧ clauses.Wf ∧ clauses.Bodied := by
  cases h with
  | @inline header body hheader hne hlines =>
    obtain ⟨lines, rfl, hbody⟩ := exists_lines hlines
    exact ⟨.inlineThen header lines rest, rfl, ⟨⟨hheader, by simpa using hne, hbody⟩, hwf⟩, hbodied⟩
  | @suite header body newline indent dedent hheader hbreaks hopens hne hstatements hcloses =>
    obtain ⟨code, rfl, hcode, hfull, -⟩ := exists_body hne hstatements
    refine ⟨.suiteThen header newline indent code dedent rest, ?_,
      ⟨⟨hheader, hbreaks, hopens, hcode, hcloses⟩, hwf⟩, hfull, hbodied⟩
    rw [Clauses.shapes, List.append_assoc, List.singleton_append]

theorem exists_clauses {piece : List Shape} {pieces : List (List Shape)}
    (h : ∀ p ∈ piece :: pieces, IsPiece p) :
    ∃ clauses : Clauses, clauses.shapes = (piece :: pieces).flatten ∧ clauses.Wf ∧ clauses.Bodied ∧
      (pieces = [] → clauses.hasSuite = true → clauses.endsInline = false) := by
  induction pieces generalizing piece with
  | nil =>
    obtain ⟨clauses, hshapes, hwf, hbodied, hends⟩ := (h piece (by simp)).exists_last
    exact ⟨clauses, by simpa using hshapes, hwf, hbodied, fun _ => hends⟩
  | cons next pieces ih =>
    rw [List.forall_mem_cons] at h
    obtain ⟨rest, hrest, hwf, hbodied, -⟩ := ih h.2
    obtain ⟨clauses, hshapes, hwf, hbodied⟩ := h.1.exists_cons hwf hbodied
    refine ⟨clauses, ?_, hwf, hbodied, nofun⟩
    rw [hshapes, hrest, ← List.flatten_cons]

/-- A statement made of pieces, which is decorated only if there is one. -/
theorem isStatement_compound (decorators : List Decorator) (lead : Option Lead) (symbol : Symbol)
    (hdecorators : ∀ d ∈ decorators, d.Wf) (hlead : ∀ l ∈ lead, l.Wf) (hsymbol : symbol ∈ blockForms)
    {pieces : List (List Shape)} (hne : pieces ≠ []) (hpieces : ∀ p ∈ pieces, IsPiece p)
    (hsingle : decorators ≠ [] → pieces.length = 1) :
    IsStatement (decorate decorators (leadShape lead (.node symbol pieces.flatten))) := by
  obtain ⟨piece, rest, rfl⟩ := List.exists_cons_of_ne_nil hne
  obtain ⟨clauses, hshapes, hwf, hbodied, hends⟩ := exists_clauses hpieces
  refine ⟨.compound decorators lead symbol clauses, ?_, ⟨hdecorators, hlead, hsymbol, hwf⟩, hbodied,
    fun hne => hends (by simpa using hsingle hne)⟩
  rw [Statement.shape, hshapes]

theorem isStatement_choice {header cases : List Shape} {newline indent dedent : Leaf}
    (hheader : IsHeader header) (hnewline : newline.kind = .newline) (hindent : indent.kind = .indent)
    (hne : cases ≠ []) (hcases : ∀ s ∈ cases, IsStatement s) (hdedent : dedent.kind = .dedent) :
    IsStatement (.node .matchStmt
      (header ++ .leaf newline :: .leaf indent :: cases ++ [.leaf dedent])) := by
  obtain ⟨body, rfl, hwf, hbodied, hdecorated⟩ := exists_body hne hcases
  exact ⟨.choice header newline indent body dedent, rfl, ⟨hheader, hnewline, hindent, hwf, hdedent⟩,
    hbodied, hdecorated⟩

theorem decoratorsShape_eq_stacked (ds : List Decorator) :
    decoratorsShape ds = Parse.stacked (ds.map Decorator.shape) := by
  match ds with
  | [] => rfl
  | [_] => rfl
  | _ :: _ :: _ => rfl

end Grammar

namespace Parse

open Text Construct Grammar

namespace Construct

/-- Whether every header has a body that is not empty, and every body a header; `headed` says whether
a header stands in front. -/
def isBodied : Bool → List Construct → Bool
  | headed, [] => !headed
  | headed, p :: rest =>
    if isClause p.kind then !headed && isBodied false rest
    else if p.kind = "block" then headed && !p.parts.isEmpty && isBodied false rest
    else isBodied true rest

/-- Whether there is one body, with nothing but headers in front of it. -/
def endsWithBody (parts : List Construct) : Bool :=
  parts.dropLast.all isHeader && parts.getLast?.any fun p => p.kind == "block"

def isDefinition (kind : String) : Bool :=
  kind == "function_definition" || kind == "class_definition"

end Construct

/-- What a grammar of the language promises of the statements of a valid text: none lacks a header, a
body or what its decorators stand in front of. -/
structure Complete (text : String) (top : List Construct) : Prop where
  compounds : ∀ p ∈ nodesOfAll top, ∀ symbol ∈ compoundSymbol? p.kind, symbol ∈ blockForms →
    afterAsync p.parts ≠ [] ∧ isBodied false (afterAsync p.parts) = true
  clauses : ∀ p ∈ nodesOfAll top,
    (isClause p.kind || p.kind == "case_clause" || p.kind == "match_statement") = true →
      isBodied false p.parts = true
  /-- Definitions and matches have one body. -/
  single : ∀ p ∈ nodesOfAll top, (isDefinition p.kind || p.kind == "match_statement") = true →
    endsWithBody p.parts = true
  decorated : ∀ p ∈ nodesOfAll top, p.kind = "decorated_definition" →
    p.parts.dropLast ≠ [] ∧ (p.parts.dropLast.all fun q => q.kind == "decorator") = true ∧
      (p.parts.getLast?.any fun q => isDefinition q.kind) = true
  /-- A body on the line of its header holds simple statements only. -/
  suites : ∀ p ∈ nodesOfAll top, p.kind = "block" →
    (p.parts.any fun q => (compoundSymbol? q.kind).isSome) = true →
      ∀ first ∈ p.parts.head?, ∀ t ∈ tokensOfAll top, t.stop ≤ first.start →
        Breaks text t.stop first.start

theorem blocksHeaded_of_isBodied {headed : Bool} {parts : List Construct}
    (h : isBodied headed parts = true) : blocksHeaded headed parts = true := by
  induction parts generalizing headed with
  | nil => rfl
  | cons p rest ih =>
    rw [isBodied] at h
    rw [blocksHeaded]
    split at h
    · next hclause =>
      rw [Bool.and_eq_true] at h
      simp [isHeader, hclause, ne_block_of_isClause hclause, ih h.2]
    · next hclause =>
      split at h
      · next hkind =>
        rw [Bool.and_eq_true, Bool.and_eq_true] at h
        simp [isHeader, hkind, h.1.1, ih h.2]
      · next hkind =>
        have hheader : p.isHeader = true := isHeader_iff.mpr ⟨hkind, by simpa using hclause⟩
        simp [hheader, hkind, ih h]

theorem exists_endsWithBody {parts : List Construct} (h : endsWithBody parts = true) :
    ∃ headers body, parts = headers ++ [body] ∧ (∀ p ∈ headers, p.isHeader = true) ∧
      body.kind = "block" := by
  rw [endsWithBody, Bool.and_eq_true, List.all_eq_true, Option.any_eq_true] at h
  obtain ⟨hheaders, body, hlast, hkind⟩ := h
  exact ⟨parts.dropLast, body, (List.dropLast_append_getLast? body hlast).symm, hheaders,
    beq_iff_eq.mp hkind⟩

theorem of_endsWithBody {parts : List Construct} (h : endsWithBody parts = true) :
    (∀ p ∈ parts, isClause p.kind = false) ∧ (parts.countP fun p => p.kind == "block") = 1 := by
  obtain ⟨headers, body, rfl, hheaders, hkind⟩ := exists_endsWithBody h
  have hheader : ∀ p ∈ headers, p.kind ≠ "block" ∧ isClause p.kind = false := fun p hp =>
    isHeader_iff.mp (hheaders p hp)
  constructor
  · refine List.forall_mem_append.mpr ⟨fun p hp => (hheader p hp).2, ?_⟩
    rw [List.forall_mem_singleton, hkind]
    decide
  · have hnone : (headers.countP fun p => p.kind == "block") = 0 :=
      List.countP_eq_zero.mpr fun p hp => by simpa using (hheader p hp).1
    rw [List.countP_append, hnone, List.countP_singleton, hkind]
    rfl

/-- Behind headers, the body is not empty, and it has a header. -/
theorem of_isBodied_headers {headed : Bool} {headers : List Construct} {body : Construct}
    (hheaders : ∀ p ∈ headers, p.isHeader = true) (hkind : body.kind = "block")
    (h : isBodied headed (headers ++ [body]) = true) :
    (headed = true ∨ headers ≠ []) ∧ body.parts ≠ [] := by
  induction headers generalizing headed with
  | nil =>
    have hclause : isClause "block" = false := by decide
    simpa [isBodied, hkind, hclause] using h
  | cons p rest ih =>
    rw [List.forall_mem_cons] at hheaders
    obtain ⟨hblock, hclause⟩ := isHeader_iff.mp hheaders.1
    rw [List.cons_append, isBodied, if_neg (by simp [hclause]), if_neg hblock] at h
    exact ⟨.inr (by simp), (ih hheaders.2 h).2⟩

theorem LaidOut.parts_ne_nil {text : String} {top : List Construct} {p : Construct}
    (h : LaidOut text top) (hp : p ∈ nodesOfAll top) (hkind : p.kind ≠ "block")
    (htoken : p.isToken = false) : p.parts ≠ [] := by
  have hfull := h.full p hp hkind
  rw [tokens_of_not_isToken htoken] at hfull
  rintro hnil
  rw [hnil, tokensOfAll] at hfull
  exact hfull rfl

/-- Offsets with a line break between them are on different lines. -/
theorem lineOf_ne_of_breaks {text : String} {m n : Nat} (h : Breaks text m n) :
    (LineIndex.ofText text.toList).lineOf n ≠ (LineIndex.ofText text.toList).lineOf (m - 1) := by
  obtain ⟨hm, hn, hlt⟩ := isBoundary_of_mem_slice h
  have hadd := lineOf_add hm hn hlt.le
  have hfeeds : 0 < lineFeeds (slice text.toList m n) := List.count_pos_iff.mpr h
  have hmono : (LineIndex.ofText text.toList).lineOf (m - 1) ≤
      (LineIndex.ofText text.toList).lineOf m := lineOf_mono _ (Nat.sub_le _ _)
  omega

structure Made (text : String) (top : List Construct) (p : Construct) : Prop where
  expression : p ∈ nodesOfAll top → p.isPlaced .expression = true →
    ∀ c, (expression (.ofText text) c p).1.Plain
  expressions : p ∈ nodesOfAll top → Among top .expression p.parts →
    ∀ c, ∀ s ∈ (expressions (.ofText text) c p.parts).1, s.Plain
  compound : p ∈ nodesOfAll top → ∀ symbol wrapper, compoundSymbol? p.kind = some symbol →
    wrapper ∈ [Symbol.asyncStmt, .asyncFuncdef] → ∀ next c,
      Front text top (Site.below .body p.kind) p.start next c p.parts →
        ∀ ds : List Decorator, (∀ d ∈ ds, d.Wf) → (ds ≠ [] → isDefinition p.kind = true) →
          IsStatement (decorate ds (compound (.ofText text) c symbol wrapper p).1)
  lines : Among top .body p.parts → (∀ q ∈ p.parts, compoundSymbol? q.kind = none) →
    ∀ c, ∀ s ∈ (statements (.ofText text) c .idle p.parts).1, IsLine s
  statements : p ∈ nodesOfAll top → p.kind = "block" → ∀ next c,
    Front text top .body p.start next c p.parts →
      ∀ s ∈ (statements (.ofText text) c .idle p.parts).1, IsStatement s
  clauses : p ∈ nodesOfAll top → isBodied false p.parts = true → ∀ next c,
    Front text top .clause p.start next c p.parts →
      ∃ pieces : List (List Shape), (clauses (.ofText text) c p.parts).1 = pieces.flatten ∧
        (∀ q ∈ pieces, IsPiece q) ∧ (p.parts ≠ [] → pieces ≠ [])
  matchCases : p ∈ nodesOfAll top → ∀ next c, Front text top .cases p.start next c p.parts →
    ∀ s ∈ (matchCases (.ofText text) c p.parts).1, IsStatement s

section Lists

variable {text : String} {top parts : List Construct} {lo next : Nat} {c : Cursor}
  (hparts : ∀ p ∈ parts, Made text top p)
include hparts

theorem Made.expressions_plain (hamong : Among top .expression parts) (c : Cursor) :
    ∀ s ∈ (Parse.expressions (.ofText text) c parts).1, s.Plain := by
  induction parts generalizing c with
  | nil =>
    rw [Parse.expressions]
    exact List.forall_mem_nil _
  | cons p rest ih =>
    rw [List.forall_mem_cons] at hparts
    rw [among_cons] at hamong
    rw [Parse.expressions]
    exact List.forall_mem_cons.mpr
      ⟨hparts.1.expression hamong.1.1 hamong.1.2 c, ih hparts.2 hamong.2 _⟩

omit hparts in
theorem isLine_close {source : Source} {pending : Pending} (hpending : ∀ s ∈ pending.parts, s.Plain)
    (c : Cursor) : ∀ s ∈ (pending.close source c).1, IsLine s := by
  rw [Pending.close]
  split
  · exact List.forall_mem_nil _
  · next hne =>
    exact List.forall_mem_singleton.mpr
      (isLine_simple ⟨by simpa using hne, hpending⟩ (kind_takeNewline _ _))

theorem Made.statements_isLine (hamong : Among top .body parts)
    (hsimple : ∀ p ∈ parts, compoundSymbol? p.kind = none) {pending : Pending}
    (hpending : ∀ s ∈ pending.parts, s.Plain) (c : Cursor) :
    ∀ s ∈ (Parse.statements (.ofText text) c pending parts).1, IsLine s := by
  induction parts generalizing c pending with
  | nil =>
    rw [Parse.statements]
    exact isLine_close hpending c
  | cons p rest ih =>
    rw [List.forall_mem_cons] at hparts hsimple
    rw [among_cons] at hamong
    have hkind : isExpression p.kind = true := by
      simpa [Site.admits, hsimple.1] using admits_of_isPlaced hamong.1.2
    have hplain := hparts.1.expression hamong.1.1 (isPlaced_expression hamong.1.2 hkind)
    rw [Parse.statements]
    split
    · exact ih hparts.2 hamong.2 hsimple.2
        (List.forall_mem_append.mpr ⟨hpending, List.forall_mem_singleton.mpr (hplain c)⟩) _
    · simp only [hsimple.1]
      exact List.forall_mem_append.mpr ⟨isLine_close hpending c,
        ih hparts.2 hamong.2 hsimple.2 (List.forall_mem_singleton.mpr (hplain _)) _⟩

variable (h : LaidOut text top)
include h

theorem Made.statements_isStatement {pending : Pending} (hpending : ∀ s ∈ pending.parts, s.Plain)
    {prev : Option Construct} (hfront : StatementFront text top pending prev lo next c parts) :
    ∀ s ∈ (Parse.statements (.ofText text) c pending parts).1, IsStatement s := by
  induction parts generalizing lo c pending prev with
  | nil =>
    rw [Parse.statements]
    exact fun s hs => (isLine_close hpending c s hs).isStatement
  | cons p rest ih =>
    rw [List.forall_mem_cons] at hparts
    obtain ⟨hp, hplaced, -⟩ := hfront.toFront.cons
    have hplain (hsymbol : compoundSymbol? p.kind = none) (c : Cursor) :
        (Parse.expression (.ofText text) c p).1.Plain := by
      have hkind : isExpression p.kind = true := by
        simpa [Site.admits, hsymbol] using admits_of_isPlaced hplaced
      exact hparts.1.expression hp (isPlaced_expression hplaced hkind) c
    rw [Parse.statements]
    cases haccepts : pending.accepts (.ofText text) c p with
    | true =>
      obtain ⟨hsymbol, hseparated⟩ := of_accepts haccepts
      obtain ⟨-, hleft⟩ := hfront.step_simple h (faithful h p) hsymbol
        ⟨pending.parts ++ [(Parse.expression (.ofText text) c p).1], !pending.separated⟩ (by simp)
        hseparated
      exact ih hparts.2 (List.forall_mem_append.mpr
        ⟨hpending, List.forall_mem_singleton.mpr (hplain hsymbol c)⟩) hleft
    | false =>
      obtain ⟨-, -, -, -, hidle⟩ := hfront.close h haccepts
      have hclosed : ∀ s ∈ (pending.close (.ofText text) c).1, IsStatement s := fun s hs =>
        (isLine_close hpending c s hs).isStatement
      simp only [Bool.false_eq_true, if_false]
      cases hsymbol : compoundSymbol? p.kind with
      | some symbol =>
        obtain ⟨-, hleft⟩ := hidle.step_compound h (faithful h p) hsymbol
        have hbelow := hidle.toFront.below h
          (h.parted_not_isToken hp (needsHeader_of_compoundSymbol? hsymbol))
        have hstatement := hparts.1.compound hp symbol .asyncStmt hsymbol (by simp) _ _ hbelow []
          (by simp) (by simp)
        exact List.forall_mem_append.mpr ⟨hclosed,
          List.forall_mem_cons.mpr ⟨hstatement, ih hparts.2 (List.forall_mem_nil _) hleft⟩⟩
      | none =>
        have hkind : (p.kind == ";") = false := by simpa using hidle.first rfl p rfl
        obtain ⟨-, hleft⟩ := hidle.step_simple h (faithful h p) hsymbol
          ⟨[(Parse.expression (.ofText text) (pending.close (.ofText text) c).2 p).1], false⟩
          (by simp) hkind.symm
        exact List.forall_mem_append.mpr ⟨hclosed,
          ih hparts.2 (List.forall_mem_singleton.mpr (hplain hsymbol _)) hleft⟩

theorem Made.decorators_shapes (hkinds : ∀ p ∈ parts, p.kind = "decorator")
    (hamong : Among top .body parts) (c : Cursor) :
    ∃ ds : List Decorator, (Parse.decorators (.ofText text) c parts).1 = ds.map Decorator.shape ∧
      (∀ d ∈ ds, d.Wf) ∧ ds.length = parts.length := by
  induction parts generalizing c with
  | nil => exact ⟨[], by simp [Parse.decorators]⟩
  | cons p rest ih =>
    rw [List.forall_mem_cons] at hparts hkinds
    rw [among_cons] at hamong
    have htoken := h.parted_not_isToken hamong.1.1 (by rw [hkinds.1]; decide)
    have hbelow := among_parts hamong.1.1 hamong.1.2 htoken
    rw [hkinds.1] at hbelow
    have hne : (Parse.expressions (.ofText text) c p.parts).1 ≠ [] := by
      obtain ⟨q, more, hcons⟩ := List.exists_cons_of_ne_nil
        (h.parts_ne_nil hamong.1.1 (by rw [hkinds.1]; decide) htoken)
      simp [hcons, Parse.expressions]
    rw [decorators_of_decorator hkinds.1]
    obtain ⟨ds, hds, hwf, hlength⟩ := ih hparts.2 hkinds.2 hamong.2
      ((Parse.expressions (.ofText text) c p.parts).2.takeNewline (.ofText text)).2
    refine ⟨⟨_, _⟩ :: ds, by rw [List.map_cons, ← hds]; rfl, ?_, by simp [hlength]⟩
    exact List.forall_mem_cons.mpr
      ⟨⟨⟨hne, hparts.1.expressions hamong.1.1 hbelow c⟩, kind_takeNewline _ _⟩, hwf⟩

/-- The parts of a match, the first of which may have been read already. -/
theorem Made.matchParts_isStatement {headers : List Construct} {body : Construct}
    (hsplit : parts = headers ++ [body]) (hheaders : ∀ p ∈ headers, p.isHeader = true)
    (hkind : body.kind = "block") (hbody : body.parts ≠ []) {header : List Shape}
    (hheader : ∀ s ∈ header, s.Plain) (hne : header ≠ [] ∨ headers ≠ []) {prev : Option Construct}
    (hfront : MatchFront text top prev lo next c parts) :
    IsStatement (.node .matchStmt (header ++ (Parse.matchParts (.ofText text) c parts).1)) := by
  induction headers generalizing parts header prev lo c with
  | nil =>
    subst hsplit
    obtain ⟨hp, -⟩ := hfront.toFront.cons
    have hready := (hfront.newline_before_block h hkind).2.ready
    have hmoved : Front text top .subject lo next (c.takeNewline (.ofText text)).2 [body] :=
      { hfront.toFront with ready := hready }
    have hbelow := hmoved.below h (LaidOut.block_not_isToken hkind)
    rw [hkind] at hbelow
    have hcases := (hparts body (by simp)).matchCases hp _ _ hbelow
    have hfull : (Parse.matchCases (.ofText text) (c.takeNewline (.ofText text)).2 body.parts).1 ≠
        [] := by
      obtain ⟨⟨kind, start, stop, childless, below⟩, more, hcons⟩ := List.exists_cons_of_ne_nil hbody
      rw [hcons, Parse.matchCases]
      exact List.cons_ne_nil _ _
    simp only [List.nil_append, matchParts_of_block hkind, Parse.matchParts]
    rw [← List.append_assoc]
    exact isStatement_choice ⟨hne.resolve_right (· rfl), hheader⟩ (kind_takeNewline _ _) rfl hfull
      hcases rfl
  | cons p rest ih =>
    subst hsplit
    rw [List.cons_append] at hparts hfront ⊢
    rw [List.forall_mem_cons] at hparts hheaders
    obtain ⟨hp, hplaced, -⟩ := hfront.toFront.cons
    have hblock := (isHeader_iff.mp hheaders.1).1
    have hexpression : isExpression p.kind = true := by
      simpa [Site.admits, hblock] using admits_of_isPlaced hplaced
    have hplain := hparts.1.expression hp (isPlaced_expression hplaced hexpression) c
    rw [matchParts_of_header hblock]
    have hstatement := ih hparts.2 rfl hheaders.2
      (List.forall_mem_append.mpr ⟨hheader, List.forall_mem_singleton.mpr hplain⟩) (.inl (by simp))
      (hfront.step_header h (faithful h p) hblock).2
    rwa [List.append_assoc, List.singleton_append] at hstatement

variable (hcomplete : Complete text top)
include hcomplete

theorem Made.matchCases_isStatement (hfront : Front text top .cases lo next c parts) :
    ∀ s ∈ (Parse.matchCases (.ofText text) c parts).1, IsStatement s := by
  induction parts generalizing lo c with
  | nil =>
    rw [Parse.matchCases]
    exact List.forall_mem_nil _
  | cons p rest ih =>
    rw [List.forall_mem_cons] at hparts
    obtain ⟨hp, hplaced, -⟩ := hfront.cons
    have hkind : p.kind = "case_clause" := beq_iff_eq.mp (admits_of_isPlaced hplaced)
    have htoken := h.parted_not_isToken hp (by rw [hkind]; decide)
    have hstep := hfront.reads h ((faithful h p).clauses hp htoken (among_parts hp hplaced htoken))
    obtain ⟨pieces, heq, hpieces, hne⟩ := hparts.1.clauses hp
      (hcomplete.clauses p hp (by rw [hkind]; decide)) _ _ (hfront.below h htoken)
    have hstatement := isStatement_compound [] none .caseBlock (by simp) (by simp) (by decide)
      (hne (h.parts_ne_nil hp (by rw [hkind]; decide) htoken)) hpieces (by simp)
    rw [matchCases_of_case hkind, heq]
    exact List.forall_mem_cons.mpr ⟨hstatement, ih hparts.2 hstep.front⟩

omit hparts in
/-- The statements of a body on the line of its header are simple. -/
theorem simple_of_inline {headed : Bool} {p first : Construct} {rest : List Construct}
    (hfront : ClauseFront text top headed lo next c (p :: rest)) (hkind : p.kind = "block")
    (hfirst : p.parts.head? = some first)
    (hline : (Source.ofText text).index.lineOf first.start =
      (Source.ofText text).index.lineOf (c.offset - 1)) :
    ∀ q ∈ p.parts, compoundSymbol? q.kind = none := by
  obtain ⟨hp, -⟩ := hfront.toFront.cons
  obtain ⟨t, ht, hoffset, hle⟩ := hfront.header_before_block hkind
  obtain ⟨-, hstart, -⟩ := block_tokens h hp hkind hfirst
    (ne_block_of_body (hfront.among_block hkind first (List.mem_of_head? hfirst)).2)
  intro q hq
  by_contra hsymbol
  -- a compound statement in the body takes a line break in front of the body
  have hany : (p.parts.any fun q => (compoundSymbol? q.kind).isSome) = true :=
    List.any_eq_true.mpr ⟨q, hq, Option.isSome_iff_ne_none.mpr hsymbol⟩
  have hbreak := hcomplete.suites p hp hkind hany first hfirst t ht (hle.trans hstart)
  exact lineOf_ne_of_breaks hbreak (hoffset ▸ hline)

omit hparts in
/-- A body ends a piece. What comes after it starts with a header of its own. -/
theorem Made.exists_piece {headed : Bool} {p : Construct} {rest : List Construct}
    (hmade : Made text top p) {header : List Shape} (hheader : IsHeader header)
    (hfront : ClauseFront text top headed lo next c (p :: rest)) (hkind : p.kind = "block")
    (hne : p.parts ≠ []) :
    ∃ body c', Parse.clauses (.ofText text) c (p :: rest) =
        (body ++ (Parse.clauses (.ofText text) c' rest).1,
          (Parse.clauses (.ofText text) c' rest).2) ∧
      IsPiece (header ++ body) ∧ ClauseFront text top false p.stop next c' rest := by
  obtain ⟨hp, -⟩ := hfront.toFront.cons
  obtain ⟨first, more, hcons⟩ := List.exists_cons_of_ne_nil hne
  have hfirst : p.parts.head? = some first := by rw [hcons, List.head?_cons]
  by_cases hline : (Source.ofText text).index.lineOf first.start =
      (Source.ofText text).index.lineOf (c.offset - 1)
  · have hlines := hmade.lines (hfront.among_block hkind)
      (simple_of_inline h hcomplete hfront hkind hfirst hline) c
    exact ⟨_, _, clauses_of_inline hkind hfirst hline,
      .inline hheader (statements_ne_nil (.inr hne)) hlines,
      (hfront.step_body h hkind (faithful h p) hfront.ready).2⟩
  · have hready := (hfront.newline_before_block h hkind hfirst hline).ready
    have hmoved : Front text top .clause lo next (c.takeNewline (.ofText text)).2 (p :: rest) :=
      { hfront.toFront with ready := hready }
    have hbelow := hmoved.below h (LaidOut.block_not_isToken hkind)
    rw [hkind] at hbelow
    have hstatements := hmade.statements hp hkind _ _ hbelow
    refine ⟨[suiteShape (c.takeNewline (.ofText text)).1 (marker .indent _) _ (marker .dedent _)], _,
      clauses_of_suite hkind hfirst hline, ?_,
      (hfront.step_body h hkind (faithful h p) hready).2⟩
    exact .suite hheader (kind_takeNewline _ _) rfl (statements_ne_nil (.inr hne)) hstatements rfl

/-- Clauses are pieces, the first of which may have got part of its header already. -/
theorem Made.clauses_pieces {header : List Shape} (hheader : ∀ s ∈ header, s.Plain) {headed : Bool}
    (hheaded : headed = true ↔ header ≠ []) (hbodied : isBodied headed parts = true)
    (hfront : ClauseFront text top headed lo next c parts) :
    ∃ pieces : List (List Shape),
      header ++ (Parse.clauses (.ofText text) c parts).1 = pieces.flatten ∧
      (∀ q ∈ pieces, IsPiece q) ∧ (parts ≠ [] → pieces ≠ []) ∧
      ((∀ p ∈ parts, isClause p.kind = false) →
        pieces.length = parts.countP fun p => p.kind == "block") := by
  -- a header is read into `header`, a body makes a piece of it, and a clause brings its own pieces
  induction parts generalizing header headed lo c with
  | nil =>
    have hnil : header = [] := by
      rw [isBodied, Bool.not_eq_true'] at hbodied
      by_contra hne
      rw [hheaded.mpr hne] at hbodied
      cases hbodied
    exact ⟨[], by simp [hnil, Parse.clauses], by simp, by simp, by simp⟩
  | cons p rest ih =>
    rw [List.forall_mem_cons] at hparts
    obtain ⟨hp, hplaced, -⟩ := hfront.toFront.cons
    rw [isBodied] at hbodied
    cases hclause : isClause p.kind with
    | true =>
      rw [hclause, if_pos rfl, Bool.and_eq_true, Bool.not_eq_true'] at hbodied
      obtain rfl : header = [] := by
        by_contra hne
        rw [hheaded.mpr hne] at hbodied
        exact absurd hbodied.1 (by simp)
      have hblock := ne_block_of_isClause hclause
      have htoken := h.parted_not_isToken hp (by simp [needsHeader, hclause])
      obtain ⟨-, hleft⟩ := hfront.step_clause h (faithful h p) hclause
      obtain ⟨first, heq, hpieces, hne⟩ := hparts.1.clauses hp
        (hcomplete.clauses p hp (by simp [hclause])) _ _ (hfront.below_clause h hclause)
      obtain ⟨others, heq', hothers, -⟩ := ih hparts.2 hheader (by simp) hbodied.2 hleft
      rw [List.nil_append] at heq'
      rw [List.nil_append, clauses_of_isClause hclause, heq, heq', ← List.flatten_append]
      exact ⟨first ++ others, rfl, List.forall_mem_append.mpr ⟨hpieces, hothers⟩,
        fun _ => by simp [hne (h.parts_ne_nil hp hblock htoken)],
        fun hnone => absurd (hnone p (by simp)) (by simp [hclause])⟩
    | false =>
      rw [hclause, if_neg (by simp)] at hbodied
      by_cases hkind : p.kind = "block"
      · rw [if_pos hkind, Bool.and_eq_true, Bool.and_eq_true, Bool.not_eq_true',
          List.isEmpty_eq_false_iff] at hbodied
        obtain ⟨body, c', heq, hpiece, hleft⟩ :=
          hparts.1.exists_piece h hcomplete ⟨hheaded.mp hbodied.1.1, hheader⟩ hfront hkind hbodied.1.2
        obtain ⟨others, heq', hothers, -, hlength⟩ :=
          ih hparts.2 (List.forall_mem_nil _) (by simp) hbodied.2 hleft
        rw [List.nil_append] at heq'
        rw [heq, heq', ← List.append_assoc, ← List.flatten_cons]
        refine ⟨_, rfl, List.forall_mem_cons.mpr ⟨hpiece, hothers⟩, by simp, fun hnone => ?_⟩
        rw [List.length_cons, hlength (List.forall_mem_cons.mp hnone).2,
          List.countP_cons_of_pos (by simpa using hkind)]
      · have hisHeader : p.isHeader = true := isHeader_iff.mpr ⟨hkind, hclause⟩
        have hexpression : isExpression p.kind = true := by
          simpa [Site.admits, hkind, hclause] using admits_of_isPlaced hplaced
        rw [if_neg hkind] at hbodied
        obtain ⟨-, hleft⟩ := hfront.step_header h (faithful h p) hisHeader
        have hplain := hparts.1.expression hp (isPlaced_expression hplaced hexpression) c
        obtain ⟨pieces, heq, hpieces, -, hlength⟩ := ih hparts.2
          (List.forall_mem_append.mpr ⟨hheader, List.forall_mem_singleton.mpr hplain⟩)
          (by simp) hbodied hleft
        rw [List.append_assoc, List.singleton_append] at heq
        rw [clauses_of_isHeader hisHeader]
        refine ⟨pieces, heq, hpieces, fun _ hnil => ?_, fun hnone => ?_⟩
        · rw [hnil] at heq
          simp at heq
        · rw [hlength (List.forall_mem_cons.mp hnone).2,
            List.countP_cons_of_neg (by simpa using hkind)]

theorem Made.exists_pieces (hbodied : isBodied false parts = true)
    (hfront : ClauseFront text top false lo next c parts) :
    ∃ pieces : List (List Shape), (Parse.clauses (.ofText text) c parts).1 = pieces.flatten ∧
      (∀ q ∈ pieces, IsPiece q) ∧ (parts ≠ [] → pieces ≠ []) ∧
      ((∀ p ∈ parts, isClause p.kind = false) →
        pieces.length = parts.countP fun p => p.kind == "block") := by
  simpa using Made.clauses_pieces hparts h hcomplete (List.forall_mem_nil _) (by simp) hbodied hfront

end Lists

section Node

variable {text : String} {top : List Construct} {p : Construct} {lo next : Nat} {c : Cursor}
  (h : LaidOut text top) (hcomplete : Complete text top) (hp : p ∈ nodesOfAll top)
  (hparts : ∀ q ∈ p.parts, Made text top q)
include h hcomplete hp hparts

theorem Made.block_isStatement {symbol wrapper : Symbol}
    (hsymbol : compoundSymbol? p.kind = some symbol) (hblock : symbol ∈ blockForms)
    (hwrapper : wrapper ∈ [Symbol.asyncStmt, .asyncFuncdef])
    (hfront : ClauseFront text top false lo next c p.parts) {ds : List Decorator}
    (hds : ∀ d ∈ ds, d.Wf) (hdefinition : ds ≠ [] → isDefinition p.kind = true) :
    IsStatement (decorate ds (Parse.compound (.ofText text) c symbol wrapper p).1) := by
  obtain ⟨hne, hbodied⟩ := hcomplete.compounds p hp symbol hsymbol hblock
  have hdecorated : symbol ≠ .decorated := by
    rintro rfl
    exact absurd hblock (by decide)
  have hmatch : symbol ≠ .matchStmt := by
    rintro rfl
    exact absurd hblock (by decide)
  have hone (hne : ds ≠ []) : (∀ q ∈ p.parts, isClause q.kind = false) ∧
      (p.parts.countP fun q => q.kind == "block") = 1 :=
    of_endsWithBody (hcomplete.single p hp (by simp [hdefinition hne]))
  by_cases hasync : ∃ first rest, p.parts = first :: rest ∧ first.kind = "async"
  · obtain ⟨first, rest, hcons, hasync⟩ := hasync
    have hafter : afterAsync p.parts = rest := by rw [hcons, afterAsync, if_pos hasync]
    rw [hafter] at hne hbodied
    rw [hcons] at hfront hparts hone
    have hleft := (hfront.step_async h hasync).2
    obtain ⟨pieces, heq, hpieces, hnonempty, hlength⟩ := Made.exists_pieces
      (List.forall_mem_cons.mp hparts).2 h hcomplete hbodied
      ⟨hleft.toFront, blocksHeaded_of_isBodied hbodied, by simp⟩
    simp only [compound_of_async hdecorated hmatch hcons hasync, heq]
    refine isStatement_compound ds (some ⟨wrapper, _⟩) symbol hds ?_ hblock (hnonempty hne) hpieces
      fun hne => ?_
    · rintro l ⟨rfl⟩
      exact ⟨hwrapper, rfl⟩
    · obtain ⟨hnone, hcount⟩ := hone hne
      rw [hlength (List.forall_mem_cons.mp hnone).2, ← hcount,
        List.countP_cons_of_neg (by simp [hasync])]
  · have hfirst : ∀ first ∈ p.parts.head?, first.kind ≠ "async" := by
      intro first hfirst heq
      obtain ⟨rest, hcons⟩ := List.head?_eq_some_iff.mp hfirst
      exact hasync ⟨first, rest, hcons, heq⟩
    have hafter : afterAsync p.parts = p.parts := by
      cases hcons : p.parts with
      | nil => rfl
      | cons first rest => rw [afterAsync, if_neg (hfirst first (by rw [hcons, List.head?_cons]; rfl))]
    rw [hafter] at hne hbodied
    obtain ⟨pieces, heq, hpieces, hnonempty, hlength⟩ :=
      Made.exists_pieces hparts h hcomplete hbodied hfront
    rw [compound_of_clauses hdecorated hmatch hfirst, heq]
    refine isStatement_compound ds none symbol hds (by simp) hblock (hnonempty hne) hpieces
      fun hne => ?_
    rw [hlength (hone hne).1, (hone hne).2]

theorem Made.decorated_isStatement (hkind : p.kind = "decorated_definition") (wrapper : Symbol)
    (hfront : Front text top .body p.start next c p.parts) :
    IsStatement (Parse.compound (.ofText text) c .decorated wrapper p).1 := by
  obtain ⟨hne, hdecorators, hlast⟩ := hcomplete.decorated p hp hkind
  obtain ⟨body, hbody, hdefinition⟩ := (Option.any_eq_true _ _).mp hlast
  have hsplit := (List.dropLast_append_getLast? body hbody).symm
  have hheads : ∀ q ∈ p.parts.dropLast, q.kind = "decorator" := by
    simpa using List.all_eq_true.mp hdecorators
  generalize p.parts.dropLast = heads at hne hheads hsplit
  obtain ⟨symbol, hsymbol⟩ : ∃ symbol, compoundSymbol? body.kind = some symbol := by
    simp only [isDefinition, Bool.or_eq_true, beq_iff_eq] at hdefinition
    rcases hdefinition with hkind | hkind <;> exact ⟨_, by rw [hkind]; rfl⟩
  have hbodyKind : body.kind ≠ "decorator" := by
    intro heq
    rw [heq] at hdefinition
    exact absurd hdefinition (by decide)
  rw [hsplit] at hfront
  rw [hsplit, List.forall_mem_append, List.forall_mem_singleton] at hparts
  obtain ⟨mid, hleft, hright⟩ := hfront.append h
  obtain ⟨hreaches, -⟩ := decorators_reaches h (fun q _ => faithful h q) hheads hleft
  have hbodyFront := hright _ hreaches.ready
  obtain ⟨hbodyMem, -⟩ := hbodyFront.cons
  obtain ⟨ds, hds, hwf, hlength⟩ := Made.decorators_shapes hparts.1 h hheads hleft.among c
  have hstatement := hparts.2.compound hbodyMem symbol .asyncFuncdef hsymbol (by simp) _ _
    (hbodyFront.below h (h.parted_not_isToken hbodyMem (needsHeader_of_compoundSymbol? hsymbol)))
    ds hwf fun _ => hdefinition
  have hdsNe : ds ≠ [] := by
    rintro rfl
    exact hne (List.length_eq_zero_iff.mp hlength.symm)
  rw [compound_decorated, hsplit]
  simp only [decorators_append (List.forall_mem_singleton.mpr hbodyKind), definitions_append hheads,
    definitions, if_neg hbodyKind, hsymbol]
  rw [hds, ← decoratorsShape_eq_stacked]
  cases ds with
  | nil => exact absurd rfl hdsNe
  | cons d more => exact hstatement

theorem Made.match_isStatement (hkind : p.kind = "match_statement") (wrapper : Symbol)
    (hfront : Front text top .subject p.start next c p.parts) :
    IsStatement (Parse.compound (.ofText text) c .matchStmt wrapper p).1 := by
  have hbodied := hcomplete.clauses p hp (by simp [hkind])
  obtain ⟨headers, body, hsplit, hheaders, hbody⟩ :=
    exists_endsWithBody (hcomplete.single p hp (by simp [hkind]))
  rw [hsplit] at hbodied
  obtain ⟨hne, hfull⟩ := of_isBodied_headers hheaders hbody hbodied
  rw [compound_matchStmt]
  exact Made.matchParts_isStatement hparts h hsplit hheaders hbody hfull (List.forall_mem_nil _)
    (.inr (hne.resolve_left (by simp))) (hfront.subject h hp hkind)

theorem Made.compound_isStatement {symbol wrapper : Symbol}
    (hsymbol : compoundSymbol? p.kind = some symbol)
    (hwrapper : wrapper ∈ [Symbol.asyncStmt, .asyncFuncdef])
    (hfront : Front text top (Site.below .body p.kind) p.start next c p.parts) {ds : List Decorator}
    (hds : ∀ d ∈ ds, d.Wf) (hdefinition : ds ≠ [] → isDefinition p.kind = true) :
    IsStatement (decorate ds (Parse.compound (.ofText text) c symbol wrapper p).1) := by
  obtain ⟨hdecorated, hmatch⟩ := kind_of_compoundSymbol? hsymbol
  have hplain (hkind : isDefinition p.kind = false) : ds = [] := by
    by_contra hne
    rw [hdefinition hne] at hkind
    cases hkind
  rcases compoundSymbol?_cases hsymbol with rfl | rfl | hblock
  · have hkind := hdecorated rfl
    rw [hplain (by rw [hkind]; decide)]
    simp only [Site.below, hsymbol] at hfront
    exact Made.decorated_isStatement h hcomplete hp hparts hkind wrapper hfront
  · have hkind := hmatch rfl
    rw [hplain (by rw [hkind]; decide)]
    simp only [Site.below, hsymbol] at hfront
    exact Made.match_isStatement h hcomplete hp hparts hkind wrapper hfront
  · have hne : symbol ≠ .decorated ∧ symbol ≠ .matchStmt := by
      constructor <;>
      · rintro rfl
        exact absurd hblock (by decide)
    rw [below_body hsymbol hne.1 hne.2] at hfront
    exact Made.block_isStatement h hcomplete hp hparts hsymbol hblock hwrapper (hfront.clauses h hp)
      hds hdefinition

omit hcomplete in
theorem Made.expression_plain (hplaced : p.isPlaced .expression = true) (c : Cursor) :
    (Parse.expression (.ofText text) c p).1.Plain := by
  obtain ⟨kind, start, stop, childless, parts⟩ := p
  have hblock : kind ≠ "block" := ne_block_of_isExpression (admits_of_isPlaced hplaced)
  rw [Parse.expression]
  split
  · exact .leaf (isOrdinary_tokenKind _ _)
  · next hleaf =>
    have htoken : isToken (.node kind start stop childless parts) = false := by
      simp only [Bool.or_eq_true, decide_eq_true_eq, not_or, Bool.not_eq_true] at hleaf
      simp [isToken, Construct.kind, Construct.childless, hleaf.1, hleaf.2]
    have hne : parts ≠ [] := h.parts_ne_nil hp hblock htoken
    refine .node ?_ (Made.expressions_plain hparts (among_parts hp hplaced htoken) c)
    obtain ⟨first, rest, rfl⟩ := List.exists_cons_of_ne_nil hne
    rw [Parse.expressions]
    exact List.cons_ne_nil _ _

end Node

theorem made {text : String} {top : List Construct} (h : LaidOut text top)
    (hcomplete : Complete text top) (p : Construct) : Made text top p := by
  induction p with
  | node kind start stop childless parts ih =>
    refine ⟨fun hp hplaced => Made.expression_plain h hp ih hplaced,
      fun _ hamong => Made.expressions_plain ih hamong, ?_, ?_, ?_, ?_, ?_⟩
    · intro hp symbol wrapper hsymbol hwrapper next c hfront ds hds hdefinition
      exact Made.compound_isStatement h hcomplete hp ih hsymbol hwrapper hfront hds hdefinition
    · exact fun hamong hsimple c => Made.statements_isLine ih hamong hsimple (List.forall_mem_nil _) c
    · intro hp hkind next c hfront
      exact Made.statements_isStatement ih h (List.forall_mem_nil _) (hfront.statements h hp hkind)
    · intro hp hbodied next c hfront
      obtain ⟨pieces, heq, hpieces, hne, -⟩ :=
        Made.exists_pieces ih h hcomplete hbodied (hfront.clauses h hp)
      exact ⟨pieces, heq, hpieces, hne⟩
    · exact fun _ next c hfront => Made.matchCases_isStatement ih h hcomplete hfront

/-- A lowered file is a program, whose statements are those of the text. -/
theorem lower_isProgram (text : String) (report : Report) (h : LaidOut text report.parts)
    (hcomplete : Complete text report.parts) :
    ∃ code endMarker, lower text report = code.shapes ++ [.leaf endMarker] ∧
      (Tree.ofShapes .fileInput (lower text report)).IsProgram code endMarker ∧ code.Bodied ∧
      code.WellDecorated := by
  obtain ⟨code, hshapes, hwf, hbodied, hdecorated⟩ := exists_block
    (Made.statements_isStatement (fun p _ => made h hcomplete p) h (List.forall_mem_nil _)
      (front_file h))
  have hlower : lower text report = code.shapes ++ [.leaf (Cursor.take (.ofText text)
      (statements (.ofText text) .start .idle report.parts).2 .endMarker (Source.ofText text).length
      (Source.ofText text).length).1] := by
    rw [hshapes]
    rfl
  have hformed := (lower_formed text report).tokens
  have hascending := lower_linesAscend text report h
  rw [Shape.tokens] at hformed
  rw [hlower] at hformed hascending ⊢
  rw [Shape.tokensOfAll_append] at hformed hascending
  refine ⟨code, _, rfl, Tree.ofProgram_isProgram hwf rfl (fun x hx => ?_) hascending, hbodied,
    hdecorated⟩
  exact (hformed x (List.mem_append_left _ hx)).1

/-- A header none of whose lines is in the ranges is gone after a collapse of a parsed file: none of
its leaves is attached any more. Behind an `async`, this also takes that none of the lines from the
`async` to the end of the first header is in the ranges. -/
theorem collapseUnchanged_lower_clears_headers (text : String) (report : Report)
    (h : LaidOut text report.parts) (hcomplete : Complete text report.parts)
    (ranges : List LineRange) (wholeStatements : Bool) :
    let t := Tree.ofShapes .fileInput (lower text report)
    ∃ u summary, t.collapseUnchanged ranges wholeStatements = ⟨u, .ok summary⟩ ∧
      ∀ owner before suite after, t.isAttached suite = true → t.isSymbol suite .suite = true →
        t.children owner = before ++ suite :: after →
        t.Outside ranges (Collapse.headerBefore t before) →
        (∀ key, t.prevSibling? owner = some key → t.isToken key .async = true →
          t.Outside ranges (key :: (t.children owner).takeWhile fun n => !t.isSymbol n .suite)) →
        ∀ n ∈ Collapse.headerBefore t before, ∀ leaf ∈ t.leaves n, u.isAttached leaf = false := by
  obtain ⟨code, endMarker, -, hprogram, hbodied, -⟩ := lower_isProgram text report h hcomplete
  exact Tree.collapseUnchanged_clears_headers hprogram hbodied ranges wholeStatements

/-- With the body of the loop kept, the `else` goes as well as the header with the `async`. -/
theorem collapseUnchanged_lower_clears_headers_else :
    let text := "async for x in y:\n  a\nelse:\n  b\n"
    let report : Report :=
      .node ⟨"module", 0, 32, false, false, false, false⟩
        [.node ⟨"for_statement", 0, 31, false, false, false, false⟩
            [.node ⟨"async", 0, 5, false, false, false, false⟩ [],
              .node ⟨"for", 6, 9, false, false, false, false⟩ [],
              .node ⟨"identifier", 10, 11, false, false, false, false⟩ [],
              .node ⟨"in", 12, 14, false, false, false, false⟩ [],
              .node ⟨"identifier", 15, 16, false, false, false, false⟩ [],
              .node ⟨":", 16, 17, false, false, false, false⟩ [],
              .node ⟨"block", 20, 21, false, false, false, false⟩
                [.node ⟨"expression_statement", 20, 21, false, false, false, false⟩
                    [.node ⟨"identifier", 20, 21, false, false, false, false⟩ []]],
              .node ⟨"else_clause", 22, 31, false, false, false, false⟩
                [.node ⟨"else", 22, 26, false, false, false, false⟩ [],
                  .node ⟨":", 26, 27, false, false, false, false⟩ [],
                  .node ⟨"block", 30, 31, false, false, false, false⟩
                    [.node ⟨"expression_statement", 30, 31, false, false, false, false⟩
                        [.node ⟨"identifier", 30, 31, false, false, false, false⟩ []]]]]]
    let t := Tree.ofShapes .fileInput (lower text report)
    LaidOut text report.parts ∧ Complete text report.parts ∧
    ∃ u summary, t.collapseUnchanged [⟨2, 2⟩] true = ⟨u, .ok summary⟩ ∧
      t.text [17, 18] = "else:" ∧ u.isAttached 17 = false ∧ u.isAttached 18 = false := by
  intro text report t
  have h : LaidOut text report.parts := by constructor <;> decide +kernel
  have hcomplete : Complete text report.parts := by constructor <;> decide +kernel
  obtain ⟨u, summary, hok, hclears⟩ :=
    collapseUnchanged_lower_clears_headers text report h hcomplete [⟨2, 2⟩] true
  have hgone := hclears 3 [4, 5, 6, 7, 8, 9, 17, 18] 19 [] (by decide +kernel) (by decide +kernel)
    (by decide +kernel) (Tree.outside_iff_misses.mpr (by decide +kernel)) fun key hkey _ => by
      have hprev : t.prevSibling? 3 = some 2 := by decide +kernel
      obtain rfl := Option.some.inj (hprev.symm.trans hkey)
      exact Tree.outside_iff_misses.mpr (by decide +kernel)
  exact ⟨h, hcomplete, u, summary, hok, by decide +kernel, hgone 17 (by decide +kernel) 17
    (by decide +kernel), hgone 18 (by decide +kernel) 18 (by decide +kernel)⟩

end Parse

end LineScope
