import LineScope.Proofs.Parse.Arrangement
import LineScope.Proofs.Text.LineNumbers

/-!
# Layout of parse trees

What a grammar of the language promises of the parse tree of a valid text: which nodes hold which,
how their spans nest, and where lines break between them. The tokens of a tree are the nodes at
which lowering stops.
-/
namespace LineScope.Parse

open Text

namespace Construct

def childless : Construct → Bool
  | .node _ _ _ childless _ => childless

/-- A string is one token with all that is in it; a block without children is none. -/
def isToken (p : Construct) : Bool := p.kind == "string" || p.childless && p.kind != "block"

mutual

def tokens : Construct → List Construct
  | .node kind start stop childless parts =>
    if isToken (.node kind start stop childless parts) then [.node kind start stop childless parts]
    else tokensOfAll parts

def tokensOfAll : List Construct → List Construct
  | [] => []
  | p :: rest => p.tokens ++ tokensOfAll rest

end

mutual

/-- The nodes down to the tokens, each before those below it. -/
def nodes : Construct → List Construct
  | .node kind start stop childless parts =>
    .node kind start stop childless parts ::
      if isToken (.node kind start stop childless parts) then [] else nodesOfAll parts

def nodesOfAll : List Construct → List Construct
  | [] => []
  | p :: rest => p.nodes ++ nodesOfAll rest

end

/-- Neither a compound statement nor a part of one that holds statements. -/
def isExpression (kind : String) : Bool :=
  (compoundSymbol? kind).isNone && !isClause kind && kind != "case_clause" && kind != "block"

inductive Site where
  /-- In a file, in a block that is no match's, or below decorators. -/
  | body
  /-- Below a compound statement, a clause or a case. -/
  | clause
  /-- Below a match. -/
  | subject
  /-- In the block of a match. -/
  | cases
  | expression

def Site.admits : Site → String → Bool
  | .body, kind => (compoundSymbol? kind).isSome || isExpression kind
  | .clause, kind => isExpression kind || isClause kind || kind == "block"
  | .subject, kind => isExpression kind || kind == "block"
  | .cases, kind => kind == "case_clause"
  | .expression, kind => isExpression kind

def Site.below (site : Site) (kind : String) : Site :=
  match site with
  | .body =>
    match compoundSymbol? kind with
    | some .decorated => .body
    | some .matchStmt => .subject
    | some _ => .clause
    | none => .expression
  | .clause => if kind = "block" then .body else if isClause kind then .clause else .expression
  | .subject => if kind = "block" then .cases else .expression
  | .cases => .clause
  | .expression => .expression

mutual

/-- Whether a node and all those below it stand where they can. -/
def isPlaced (site : Site) : Construct → Bool
  | .node kind _ _ _ parts => site.admits kind && arePlaced (site.below kind) parts

def arePlaced (site : Site) : List Construct → Bool
  | [] => true
  | p :: rest => p.isPlaced site && arePlaced site rest

end

/-- Whether spans follow each other between two offsets. -/
def ascend : Nat → Nat → List Construct → Bool
  | lo, hi, [] => lo ≤ hi
  | lo, hi, p :: rest => lo ≤ p.start && ascend p.stop hi rest

def decoratorsFirst : List Construct → Bool
  | [] => true
  | p :: rest =>
    if p.kind = "decorator" then decoratorsFirst rest else rest.all fun q => q.kind != "decorator"

theorem arePlaced_iff {site : Site} {parts : List Construct} :
    arePlaced site parts = true ↔ ∀ p ∈ parts, p.isPlaced site = true := by
  induction parts with
  | nil => simp [arePlaced]
  | cons p rest ih => simp [arePlaced, ih]

theorem tokensOfAll_eq_flatMap (parts : List Construct) :
    tokensOfAll parts = parts.flatMap tokens := by
  induction parts with
  | nil => rfl
  | cons p rest ih => simp [tokensOfAll, ih]

theorem nodesOfAll_eq_flatMap (parts : List Construct) : nodesOfAll parts = parts.flatMap nodes := by
  induction parts with
  | nil => rfl
  | cons p rest ih => simp [nodesOfAll, ih]

theorem tokens_of_isToken {p : Construct} (h : p.isToken = true) : p.tokens = [p] := by
  cases p with
  | node kind start stop childless parts => rw [tokens, if_pos h]

theorem tokens_of_not_isToken {p : Construct} (h : p.isToken = false) :
    p.tokens = tokensOfAll p.parts := by
  cases p with
  | node kind start stop childless parts => rw [tokens, if_neg (by simp [h]), Construct.parts]

theorem mem_nodes_self (p : Construct) : p ∈ p.nodes := by
  cases p with
  | node kind start stop childless parts => simp [nodes]

theorem part_mem_nodes {p q r : Construct} (hp : p ∈ r.nodes) (htoken : p.isToken = false)
    (hq : q ∈ p.parts) : q ∈ r.nodes := by
  induction r with
  | node kind start stop childless parts ih =>
    rw [nodes, List.mem_cons] at hp ⊢
    rcases hp with rfl | hp
    · rw [if_neg (by simp [htoken]), nodesOfAll_eq_flatMap, List.mem_flatMap]
      exact .inr ⟨q, hq, q.mem_nodes_self⟩
    · split at hp
      · simp at hp
      · next hr =>
        rw [nodesOfAll_eq_flatMap, List.mem_flatMap] at hp
        obtain ⟨s, hs, hp⟩ := hp
        rw [if_neg hr, nodesOfAll_eq_flatMap, List.mem_flatMap]
        exact .inr ⟨s, hs, ih s hs hp⟩

theorem tokens_subset {p r : Construct} (hp : p ∈ r.nodes) : p.tokens ⊆ r.tokens := by
  induction r with
  | node kind start stop childless parts ih =>
    rw [nodes, List.mem_cons] at hp
    rcases hp with rfl | hp
    · exact fun t ht => ht
    · split at hp
      · simp at hp
      · next hr =>
        rw [nodesOfAll_eq_flatMap, List.mem_flatMap] at hp
        obtain ⟨s, hs, hp⟩ := hp
        intro t ht
        rw [tokens, if_neg hr, tokensOfAll_eq_flatMap, List.mem_flatMap]
        exact ⟨s, hs, ih s hs hp ht⟩

theorem tokens_subset_nodes (p : Construct) : p.tokens ⊆ p.nodes := by
  induction p with
  | node kind start stop childless parts ih =>
    intro t ht
    rw [tokens] at ht
    split at ht
    · rw [List.mem_singleton.mp ht]
      exact mem_nodes_self _
    · next htoken =>
      rw [tokensOfAll_eq_flatMap, List.mem_flatMap] at ht
      obtain ⟨q, hq, ht⟩ := ht
      rw [nodes, if_neg htoken, nodesOfAll_eq_flatMap]
      exact List.mem_cons_of_mem _ (List.mem_flatMap.mpr ⟨q, hq, ih q hq ht⟩)

theorem offsets_of_mem_nodes {p r : Construct} (hp : p ∈ r.nodes) :
    p.start ∈ r.offsets ∧ p.stop ∈ r.offsets := by
  induction r with
  | node kind start stop childless parts ih =>
    rw [nodes, List.mem_cons] at hp
    rcases hp with rfl | hp
    · simp [offsets, Construct.start, Construct.stop]
    · split at hp
      · simp at hp
      · rw [nodesOfAll_eq_flatMap, List.mem_flatMap] at hp
        obtain ⟨s, hs, hp⟩ := hp
        have hsub := mem_offsetsOfAll hs
        exact ⟨List.mem_cons_of_mem _ (List.mem_cons_of_mem _ (hsub (ih s hs hp).1)),
          List.mem_cons_of_mem _ (List.mem_cons_of_mem _ (hsub (ih s hs hp).2))⟩

/-- A node that starts no later than it stops and has its tokens in between. -/
def Spans (p : Construct) : Prop :=
  p.start ≤ p.stop ∧ ∀ t ∈ p.tokens, p.start ≤ t.start ∧ t.stop ≤ p.stop

theorem spans_of_ascend {lo hi : Nat} {parts : List Construct} (h : ascend lo hi parts = true)
    (hspans : ∀ p ∈ parts, p.Spans) :
    lo ≤ hi ∧ ∀ t ∈ tokensOfAll parts, lo ≤ t.start ∧ t.stop ≤ hi := by
  induction parts generalizing lo with
  | nil => exact ⟨by simpa [ascend] using h, by simp [tokensOfAll]⟩
  | cons p rest ih =>
    rw [ascend, Bool.and_eq_true, decide_eq_true_eq] at h
    rw [List.forall_mem_cons] at hspans
    obtain ⟨hle, htokens⟩ := ih h.2 hspans.2
    obtain ⟨hp, hin⟩ := hspans.1
    refine ⟨by omega, fun t ht => ?_⟩
    rcases List.mem_append.mp ht with ht | ht
    · have := hin t ht
      omega
    · have := htokens t ht
      omega

end Construct

open Construct

def Breaks (text : String) (m n : Nat) : Prop := '\n' ∈ slice text.toList m n

instance (text : String) (m n : Nat) : Decidable (Breaks text m n) :=
  inferInstanceAs (Decidable ('\n' ∈ _))

/-- A line breaks between an offset and every later token. -/
def BreaksAfter (text : String) (top : List Construct) (m : Nat) : Prop :=
  ∀ t ∈ tokensOfAll top, m ≤ t.start → Breaks text m t.start

instance (text : String) (top : List Construct) (m : Nat) : Decidable (BreaksAfter text top m) :=
  inferInstanceAs (Decidable (∀ t ∈ tokensOfAll top, _))

/-- What may stand right before a statement or a semicolon. A semicolon comes after a simple
statement; otherwise a line breaks in between, except before a simple statement after a
semicolon. -/
def Separates (text : String) (p q : Construct) : Prop :=
  if q.kind = ";" then p.kind ≠ ";" ∧ compoundSymbol? p.kind = none
  else p.kind = ";" ∧ compoundSymbol? q.kind = none ∨ Breaks text p.stop q.start

instance (text : String) (p q : Construct) : Decidable (Separates text p q) := by
  unfold Separates
  infer_instance

/-- A run of statements and of the semicolons between them. -/
def Separated (text : String) (parts : List Construct) : Prop :=
  (∀ p ∈ parts.head?, p.kind ≠ ";") ∧ parts.IsChain (Separates text)

instance (text : String) (parts : List Construct) : Decidable (Separated text parts) := by
  unfold Separated
  infer_instance

/-- How the nodes of a file, other than extras, lie in its text, as far as the text is valid. -/
structure LaidOut (text : String) (top : List Construct) : Prop where
  placed : ∀ p ∈ top, p.isPlaced .body = true
  /-- A fact of the grammar: a node that is no block holds a token. -/
  full : ∀ p ∈ nodesOfAll top, p.kind ≠ "block" → p.tokens ≠ []
  /-- A compound statement, clause, case or decorator is no token. -/
  parted : ∀ p ∈ nodesOfAll top, needsHeader p.kind = true → p.childless = false
  /-- A fact of the grammar: `async` is a keyword. -/
  async : ∀ p ∈ nodesOfAll top, p.kind = "async" → p.childless = true
  /-- A fact of the grammar: right before a block there is a header. -/
  headed : ∀ p ∈ nodesOfAll top, blocksHeaded false p.parts = true
  decorators : ∀ p ∈ nodesOfAll top, p.kind = "decorated_definition" → decoratorsFirst p.parts = true
  spans : ascend 0 (byteLength text.toList) top = true
  nested : ∀ p ∈ nodesOfAll top, ascend p.start p.stop p.parts = true
  boundary : ∀ n ∈ offsetsOfAll top, IsBoundary text.toList n
  /-- A token is not empty and does not end in a line feed. That it does not start with one is a fact
  of the grammar: a token that spans lines is a string and starts with its quote or its letters. -/
  word : ∀ t ∈ tokensOfAll top, slice text.toList t.start t.stop ≠ [] ∧
    (slice text.toList t.start t.stop).head? ≠ some '\n' ∧
    (slice text.toList t.start t.stop).getLast? ≠ some '\n'
  file : Separated text top
  block : ∀ p ∈ nodesOfAll top, p.kind = "block" → (∀ q ∈ p.parts, q.kind ≠ "case_clause") →
    Separated text p.parts
  afterBlock : ∀ p ∈ nodesOfAll top, p.kind = "block" → ∀ t ∈ p.tokens.getLast?,
    BreaksAfter text top t.stop
  afterDecorator : ∀ p ∈ nodesOfAll top, p.kind = "decorator" → BreaksAfter text top p.stop
  afterSubject : ∀ p ∈ nodesOfAll top, p.kind = "match_statement" →
    p.parts.IsChain fun header block => block.kind = "block" → BreaksAfter text top header.stop

namespace LaidOut

variable {text : String} {top : List Construct} {p q : Construct}

section Nodes

theorem mem_nodes (hp : p ∈ nodesOfAll top) : ∃ r ∈ top, p ∈ r.nodes := by
  rwa [nodesOfAll_eq_flatMap, List.mem_flatMap] at hp

theorem nodes_of_mem (hp : p ∈ top) : p ∈ nodesOfAll top := by
  rw [nodesOfAll_eq_flatMap]
  exact List.mem_flatMap.mpr ⟨p, hp, p.mem_nodes_self⟩

theorem part_mem (hp : p ∈ nodesOfAll top) (htoken : p.isToken = false) (hq : q ∈ p.parts) :
    q ∈ nodesOfAll top := by
  obtain ⟨r, hr, hp⟩ := mem_nodes hp
  rw [nodesOfAll_eq_flatMap]
  exact List.mem_flatMap.mpr ⟨r, hr, part_mem_nodes hp htoken hq⟩

theorem token_mem (hp : p ∈ nodesOfAll top) : p.tokens ⊆ tokensOfAll top := by
  obtain ⟨r, hr, hp⟩ := mem_nodes hp
  intro t ht
  rw [tokensOfAll_eq_flatMap]
  exact List.mem_flatMap.mpr ⟨r, hr, tokens_subset hp ht⟩

theorem mem_nodes_of_token {t : Construct} (ht : t ∈ tokensOfAll top) : t ∈ nodesOfAll top := by
  rw [tokensOfAll_eq_flatMap, List.mem_flatMap] at ht
  obtain ⟨r, hr, ht⟩ := ht
  rw [nodesOfAll_eq_flatMap]
  exact List.mem_flatMap.mpr ⟨r, hr, tokens_subset_nodes r ht⟩

theorem block_not_isToken (hp : p.kind = "block") : p.isToken = false := by
  simp [isToken, hp]

end Nodes

variable (h : LaidOut text top)
include h

theorem parted_not_isToken (hp : p ∈ nodesOfAll top) (hkind : needsHeader p.kind = true) :
    p.isToken = false := by
  have hstring : p.kind ≠ "string" := by
    intro heq
    rw [heq] at hkind
    exact absurd hkind (by decide)
  simp [isToken, hstring, h.parted p hp hkind]

theorem boundaries (hp : p ∈ nodesOfAll top) :
    IsBoundary text.toList p.start ∧ IsBoundary text.toList p.stop := by
  obtain ⟨r, hr, hp⟩ := mem_nodes hp
  obtain ⟨hstart, hstop⟩ := offsets_of_mem_nodes hp
  have hsub := mem_offsetsOfAll hr
  exact ⟨h.boundary _ (hsub hstart), h.boundary _ (hsub hstop)⟩

theorem token_lt {t : Construct} (ht : t ∈ tokensOfAll top) : t.start < t.stop := by
  obtain ⟨c, hc⟩ := List.exists_mem_of_ne_nil _ (h.word t ht).1
  exact (isBoundary_of_mem_slice hc).2.2

theorem spans_node (hp : p ∈ nodesOfAll top) : p.Spans := by
  induction p with
  | node kind start stop childless parts ih =>
    cases htoken : isToken (.node kind start stop childless parts) with
    | true =>
      have hmem := token_mem hp (by rw [tokens_of_isToken htoken]; exact List.mem_singleton_self _)
      refine ⟨(h.token_lt hmem).le, fun t ht => ?_⟩
      rw [tokens_of_isToken htoken, List.mem_singleton] at ht
      rw [ht]
      exact ⟨Nat.le_refl _, Nat.le_refl _⟩
    | false =>
      rw [Spans, tokens_of_not_isToken htoken]
      exact spans_of_ascend (h.nested _ hp) fun q hq => ih q hq (part_mem hp htoken hq)

end LaidOut

def Among (top : List Construct) (site : Site) (parts : List Construct) : Prop :=
  ∀ p ∈ parts, p ∈ nodesOfAll top ∧ p.isPlaced site = true

theorem among_cons {top : List Construct} {site : Site} {p : Construct} {rest : List Construct} :
    Among top site (p :: rest) ↔
      (p ∈ nodesOfAll top ∧ p.isPlaced site = true) ∧ Among top site rest := List.forall_mem_cons

theorem among_parts {top : List Construct} {site : Site} {p : Construct}
    (hp : p ∈ nodesOfAll top) (hplaced : p.isPlaced site = true) (htoken : p.isToken = false) :
    Among top (site.below p.kind) p.parts := by
  intro q hq
  refine ⟨LaidOut.part_mem hp htoken hq, ?_⟩
  cases p with
  | node kind start stop childless parts =>
    rw [isPlaced, Bool.and_eq_true, arePlaced_iff] at hplaced
    exact hplaced.2 q hq

theorem admits_of_isPlaced {site : Site} {p : Construct} (h : p.isPlaced site = true) :
    site.admits p.kind = true := by
  cases p with
  | node kind start stop childless parts =>
    rw [isPlaced, Bool.and_eq_true] at h
    exact h.1

/-- What is no part of a statement holds no statements, wherever it stands. -/
theorem isPlaced_expression {site : Site} {p : Construct} (h : p.isPlaced site = true)
    (hkind : isExpression p.kind = true) : p.isPlaced .expression = true := by
  cases p with
  | node kind start stop childless parts =>
    have hbelow : site.below kind = .expression := by
      have hadmits := admits_of_isPlaced h
      simp only [isExpression, Construct.kind, Bool.and_eq_true, Bool.not_eq_true', bne_iff_ne,
        Option.isNone_iff_eq_none] at hkind
      cases site with
      | body => simp only [Site.below, hkind.1.1.1]
      | clause => simp only [Site.below, if_neg hkind.2, hkind.1.1.2, Bool.false_eq_true, if_false]
      | subject => simp only [Site.below, if_neg hkind.2]
      | cases => exact absurd (beq_iff_eq.mp hadmits) hkind.1.2
      | expression => rfl
    rw [isPlaced, Bool.and_eq_true, hbelow] at h
    rw [isPlaced, Bool.and_eq_true]
    exact ⟨hkind, h.2⟩

theorem ne_block_of_isExpression {kind : String} (h : isExpression kind = true) :
    kind ≠ "block" := by
  simp only [isExpression, Bool.and_eq_true, bne_iff_ne] at h
  exact h.2

theorem ne_block_of_body {p : Construct} (h : p.isPlaced .body = true) : p.kind ≠ "block" := by
  intro hkind
  have hadmits := admits_of_isPlaced h
  rw [hkind] at hadmits
  exact absurd hadmits (by decide)

theorem needsHeader_of_compoundSymbol? {kind : String} {symbol : Symbol}
    (h : compoundSymbol? kind = some symbol) : needsHeader kind = true := by
  simp [needsHeader, h]

theorem kind_of_compoundSymbol? {kind : String} {symbol : Symbol}
    (h : compoundSymbol? kind = some symbol) :
    (symbol = .decorated → kind = "decorated_definition") ∧
      (symbol = .matchStmt → kind = "match_statement") := by
  obtain ⟨before, after, htable, -⟩ := List.lookup_eq_some_iff.mp h
  have hmem : (kind, symbol) ∈ before ++ (kind, symbol) :: after := by simp
  rw [← htable] at hmem
  simp only [List.mem_cons, Prod.mk.injEq, List.not_mem_nil, or_false] at hmem
  constructor
  · rintro rfl
    simpa using hmem
  · rintro rfl
    simpa using hmem

/-- Compound statements with clauses hold them directly. -/
theorem below_body {kind : String} {symbol : Symbol} (h : compoundSymbol? kind = some symbol)
    (hdecorated : symbol ≠ .decorated) (hmatch : symbol ≠ .matchStmt) :
    Site.below .body kind = .clause := by
  simp only [Site.below, h]

end LineScope.Parse
