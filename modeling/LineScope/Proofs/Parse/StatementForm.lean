import LineScope.Proofs.Collapse.Form
import LineScope.Proofs.Parse.RoundTrip

/-!
# Lowered trees have statement form

Whatever the parse tree looks like, lowering puts newlines, marks of indentation and `async` tokens
only where collapsing looks for them. What lowering makes of a node is collected in `Parse.Forming`.
-/
namespace LineScope

namespace Parse

/-- Shapes in form that may stand among the parts of a statement. -/
def Standing (shapes : List Shape) : Prop := ∀ s ∈ shapes, s.Formed ∧ s.isFree = true

def Stating (shapes : List Shape) : Prop := ∀ s ∈ shapes, s.Formed ∧ s.isForm = true

theorem Stating.standing {shapes : List Shape} (h : Stating shapes) : Standing shapes := fun s hs =>
  ⟨(h s hs).1, Shape.isFree_of_isForm (h s hs).2⟩

theorem Standing.nil : Standing [] := List.forall_mem_nil _

theorem Standing.append {shapes more : List Shape} (h : Standing shapes) (hmore : Standing more) :
    Standing (shapes ++ more) := fun s hs => (List.mem_append.mp hs).elim (h s) (hmore s)

theorem Standing.cons {s : Shape} {shapes : List Shape} (hs : s.Formed ∧ s.isFree = true)
    (h : Standing shapes) : Standing (s :: shapes) := List.forall_mem_cons.mpr ⟨hs, h⟩

section Nodes

variable {source : Source} {c : Cursor}

theorem formed_take (kind : TokenKind) (hkind : kind ≠ .verbatim ∧ kind ≠ .indent ∧ kind ≠ .dedent)
    (start stop : Nat) : (Shape.leaf (c.take source kind start stop).1).Formed :=
  .leaf hkind.1 fun hmark => (hmark.elim hkind.2.1 hkind.2.2).elim

theorem takeNewline_formed : (c.takeNewline source).1.kind = .newline ∧
    (Shape.leaf (c.takeNewline source).1).Formed := by
  unfold Cursor.takeNewline
  split
  · exact ⟨rfl, formed_take .newline (by decide) _ _⟩
  · split
    · exact ⟨rfl, formed_take .newline (by decide) _ _⟩
    · exact ⟨rfl, formed_take .newline (by decide) _ _⟩

theorem formed_marker {kind : TokenKind} (hkind : kind ≠ .verbatim) (line : Nat) :
    (Shape.leaf (marker kind line)).Formed := .leaf hkind fun _ => ⟨rfl, rfl⟩

theorem formed_line {symbol : Symbol} (hsymbol : symbol = .simpleStmt ∨ symbol = .decorator)
    {parts : List Shape} (hparts : ∀ s ∈ parts, s.Loose) :
    (Shape.node symbol (parts ++ [.leaf (c.takeNewline source).1])).Formed := by
  obtain ⟨hkind, hnewline⟩ := @takeNewline_formed source c
  refine .node ?_ fun s hs => ?_
  · rcases hsymbol with rfl | rfl <;>
      exact ⟨parts, _, rfl, hkind, fun s hs => (hparts s hs).isFree⟩
  · rcases List.mem_append.mp hs with hs | hs
    · exact (hparts s hs).formed
    · rw [List.mem_singleton.mp hs]
      exact hnewline

theorem formed_block {symbol : Symbol} (hsymbol : symbol ∈ .decorated :: Grammar.blockForms)
    {parts : List Shape} (h : Standing parts) :
    (Shape.node symbol parts).Formed ∧ (Shape.node symbol parts).isForm = true := by
  have hforms : symbol.Forms parts ∧ (symbol != .fileInput) = true := by
    simp only [Grammar.blockForms, List.mem_cons, List.not_mem_nil, or_false] at hsymbol
    rcases hsymbol with rfl | rfl | rfl | rfl | rfl | rfl | rfl | rfl | rfl <;>
      exact ⟨fun s hs => (h s hs).2, rfl⟩
  exact ⟨.node hforms.1 fun s hs => (h s hs).1, hforms.2⟩

theorem formed_suite {body : List Shape} (hne : body ≠ []) (h : Stating body) (first last : Nat) :
    (Shape.node .suite (.leaf (c.takeNewline source).1 :: .leaf (marker .indent first) ::
      body ++ [.leaf (marker .dedent last)])).Formed := by
  obtain ⟨hkind, hnewline⟩ := @takeNewline_formed source c
  refine .node ⟨_, _, body, _, rfl, hkind, rfl, rfl, hne, fun s hs => (h s hs).2⟩ fun s hs => ?_
  simp only [List.cons_append, List.mem_cons, List.mem_append, List.not_mem_nil, or_false] at hs
  rcases hs with rfl | rfl | hs | rfl
  · exact hnewline
  · exact formed_marker (by decide) first
  · exact (h s hs).1
  · exact formed_marker (by decide) last

theorem formed_wrapper {wrapper : Symbol} (hwrapper : wrapper = .asyncStmt ∨ wrapper = .asyncFuncdef)
    {block : Shape} (hblock : block.Formed ∧ block.isForm = true) (start stop : Nat) :
    (Shape.node wrapper [.leaf (c.take source .async start stop).1, block]).Formed ∧
      (Shape.node wrapper [.leaf (c.take source .async start stop).1, block]).isForm = true := by
  have hparts : ∀ s ∈ [.leaf (c.take source .async start stop).1, block], s.Formed :=
    List.forall_mem_cons.mpr
      ⟨formed_take .async (by decide) _ _, List.forall_mem_singleton.mpr hblock.1⟩
  rcases hwrapper with rfl | rfl <;>
    exact ⟨.node ⟨_, block, rfl, rfl, hblock.2⟩ hparts, rfl⟩

/-- One decorator stands for itself, and more share a node. -/
theorem stacked_standing {shapes : List Shape}
    (h : ∀ s ∈ shapes, s.Formed ∧ s.symbol? = some .decorator) : Standing (stacked shapes) := by
  have hfree {s : Shape} (hs : s.symbol? = some .decorator) : s.isFree = true := by
    cases s with
    | leaf token => cases hs
    | node symbol parts =>
      rw [Option.some.inj hs]
      rfl
  unfold stacked
  split
  · exact .nil
  · exact fun s hs => ⟨(h s hs).1, hfree (h s hs).2⟩
  · next hnil hone =>
    have hlength : 2 ≤ shapes.length := by
      match shapes, hnil, hone with
      | [], hnil, _ => exact absurd rfl hnil
      | [s], _, hone => exact absurd rfl (hone s)
      | s :: s' :: rest, _, _ => simp
    exact .cons ⟨.node ⟨hlength, fun s hs => (h s hs).2⟩ fun s hs => (h s hs).1, rfl⟩ .nil

theorem compoundSymbol?_cases {kind : String} {symbol : Symbol}
    (h : compoundSymbol? kind = some symbol) :
    symbol = .decorated ∨ symbol = .matchStmt ∨ symbol ∈ Grammar.blockForms := by
  obtain ⟨before, after, htable, -⟩ := List.lookup_eq_some_iff.mp h
  have hmem : (kind, symbol) ∈ before ++ (kind, symbol) :: after := by simp
  rw [← htable] at hmem
  simp only [List.mem_cons, Prod.mk.injEq, List.not_mem_nil, or_false] at hmem
  rcases hmem with ⟨-, rfl⟩ | ⟨-, rfl⟩ | ⟨-, rfl⟩ | ⟨-, rfl⟩ | ⟨-, rfl⟩ | ⟨-, rfl⟩ | ⟨-, rfl⟩ |
    ⟨-, rfl⟩ | ⟨-, rfl⟩ <;> decide

end Nodes

/-- Whatever is made of a node, or of its parts, has statement form. -/
structure Forming (source : Source) (p : Construct) : Prop where
  expression : ∀ c, (expression source c p).1.Loose
  expressions : ∀ c, ∀ s ∈ (expressions source c p.parts).1, s.Loose
  compound : ∀ c symbol wrapper, compoundSymbol? p.kind = some symbol →
    wrapper = .asyncStmt ∨ wrapper = .asyncFuncdef →
      (compound source c symbol wrapper p).1.Formed ∧
        (compound source c symbol wrapper p).1.isForm = true
  statements : ∀ c, Stating (statements source c .idle p.parts).1
  clauses : ∀ c, Standing (clauses source c p.parts).1
  matchCases : ∀ c, Standing (matchCases source c p.parts).1

/-- A statement under way, or nodes to come, end up as at least one statement. -/
theorem statements_ne_nil {source : Source} {c : Cursor} {pending : Pending}
    {parts : List Construct} (h : pending.parts ≠ [] ∨ parts ≠ []) :
    (statements source c pending parts).1 ≠ [] := by
  induction parts generalizing c pending with
  | nil =>
    have hpending := h.resolve_right fun hne => hne rfl
    rw [statements, Pending.close, if_neg (by simpa using hpending)]
    exact List.cons_ne_nil _ _
  | cons p rest ih =>
    rw [statements]
    split
    · exact ih (.inl (by simp))
    · simp only
      split
      · simp
      · exact fun hnil => ih (.inl (List.cons_ne_nil _ _)) (List.append_eq_nil_iff.mp hnil).2

section Lists

variable {source : Source} {parts : List Construct} (h : ∀ p ∈ parts, Forming source p)
include h

theorem expressions_loose (c : Cursor) : ∀ s ∈ (expressions source c parts).1, s.Loose := by
  induction parts generalizing c with
  | nil =>
    rw [expressions]
    exact List.forall_mem_nil _
  | cons p rest ih =>
    rw [List.forall_mem_cons] at h
    rw [expressions]
    exact List.forall_mem_cons.mpr ⟨h.1.expression c, ih h.2 _⟩

theorem decorators_formed (c : Cursor) :
    ∀ s ∈ (decorators source c parts).1, s.Formed ∧ s.symbol? = some .decorator := by
  induction parts generalizing c with
  | nil =>
    rw [decorators]
    exact List.forall_mem_nil _
  | cons p rest ih =>
    rw [List.forall_mem_cons] at h
    cases p with
    | node kind start stop childless below =>
      rw [decorators]
      split
      · exact List.forall_mem_cons.mpr
          ⟨⟨formed_line (.inr rfl) (h.1.expressions c), rfl⟩, ih h.2 _⟩
      · exact ih h.2 c

theorem definitions_standing (c : Cursor) : Standing (definitions source c parts).1 := by
  induction parts generalizing c with
  | nil =>
    rw [definitions]
    exact .nil
  | cons p rest ih =>
    rw [List.forall_mem_cons] at h
    rw [definitions]
    split
    · exact ih h.2 c
    · simp only
      cases hsymbol : compoundSymbol? p.kind with
      | some symbol =>
        obtain ⟨hformed, hform⟩ := h.1.compound c symbol .asyncFuncdef hsymbol (.inr rfl)
        exact .cons ⟨hformed, Shape.isFree_of_isForm hform⟩ (ih h.2 _)
      | none => exact .cons ⟨(h.1.expression c).formed, (h.1.expression c).isFree⟩ (ih h.2 _)

theorem matchCases_standing (c : Cursor) : Standing (matchCases source c parts).1 := by
  induction parts generalizing c with
  | nil =>
    rw [matchCases]
    exact .nil
  | cons p rest ih =>
    rw [List.forall_mem_cons] at h
    cases p with
    | node kind start stop childless below =>
      rw [matchCases]
      simp only
      by_cases hkind : kind = "case_clause"
      · simp only [if_pos hkind]
        have hblock := @formed_block .caseBlock (by decide) _ (h.1.clauses c)
        exact .cons ⟨hblock.1, rfl⟩ (ih h.2 _)
      · simp only [if_neg hkind]
        exact .cons ⟨(h.1.expression c).formed, (h.1.expression c).isFree⟩ (ih h.2 _)

theorem matchParts_formed (c : Cursor) : Shape.MatchParts (matchParts source c parts).1 ∧
    ∀ s ∈ (matchParts source c parts).1, s.Formed := by
  induction parts generalizing c with
  | nil =>
    rw [matchParts]
    exact ⟨trivial, List.forall_mem_nil _⟩
  | cons p rest ih =>
    rw [List.forall_mem_cons] at h
    cases p with
    | node kind start stop childless below =>
      rw [matchParts]
      split
      · obtain ⟨hkind, hnewline⟩ := @takeNewline_formed source c
        have hcases := h.1.matchCases (c.takeNewline source).2
        refine ⟨⟨.inr (.inr (.inr ⟨congrArg some hkind, rfl⟩)), .inr (.inl rfl), ?_⟩, ?_⟩
        · exact Shape.matchParts_append (fun s hs => (hcases s hs).2)
            ⟨.inr (.inr (.inl rfl)), (ih h.2 _).1⟩
        · intro s hs
          simp only [List.cons_append, List.mem_cons, List.mem_append] at hs
          rcases hs with rfl | rfl | hs | rfl | hs
          · exact hnewline
          · exact formed_marker (by decide) _
          · exact (hcases s hs).1
          · exact formed_marker (by decide) _
          · exact (ih h.2 _).2 s hs
      · have hloose := h.1.expression c
        exact ⟨⟨.inl hloose.isFree, (ih h.2 _).1⟩,
          List.forall_mem_cons.mpr ⟨hloose.formed, (ih h.2 _).2⟩⟩

theorem clauses_standing (c : Cursor) : Standing (clauses source c parts).1 := by
  induction parts generalizing c with
  | nil =>
    rw [clauses]
    exact .nil
  | cons p rest ih =>
    rw [List.forall_mem_cons] at h
    cases p with
    | node kind start stop childless below =>
      rw [clauses]
      split
      · exact (h.1.clauses c).append (ih h.2 _)
      · split
        · split
          · exact ih h.2 c
          · next first hfirst =>
            simp only
            split
            · exact (h.1.statements c).standing.append (ih h.2 _)
            · have hbelow : below ≠ [] := by
                rintro rfl
                cases hfirst
              exact .cons ⟨formed_suite (statements_ne_nil (.inr hbelow)) (h.1.statements _) _ _,
                rfl⟩ (ih h.2 _)
        · exact .cons ⟨(h.1.expression c).formed, (h.1.expression c).isFree⟩ (ih h.2 _)

omit h in
theorem close_stating (c : Cursor) {pending : Pending} (hpending : ∀ s ∈ pending.parts, s.Loose) :
    Stating (pending.close source c).1 := by
  rw [Pending.close]
  split
  · exact List.forall_mem_nil _
  · exact List.forall_mem_singleton.mpr ⟨formed_line (.inl rfl) hpending, rfl⟩

theorem statements_stating (c : Cursor) {pending : Pending}
    (hpending : ∀ s ∈ pending.parts, s.Loose) :
    Stating (statements source c pending parts).1 := by
  induction parts generalizing c pending with
  | nil =>
    rw [statements]
    exact close_stating c hpending
  | cons p rest ih =>
    rw [List.forall_mem_cons] at h
    rw [statements]
    split
    · refine ih h.2 _ fun s hs => ?_
      rcases List.mem_append.mp hs with hs | hs
      · exact hpending s hs
      · rw [List.mem_singleton.mp hs]
        exact h.1.expression c
    · have hclosed : Stating (pending.close source c).1 := close_stating c hpending
      simp only
      split
      · next symbol hsymbol =>
        refine List.forall_mem_append.mpr ⟨hclosed, List.forall_mem_cons.mpr ⟨?_, ?_⟩⟩
        · exact h.1.compound _ symbol .asyncStmt hsymbol (.inl rfl)
        · exact ih h.2 _ (List.forall_mem_nil _)
      · exact List.forall_mem_append.mpr
          ⟨hclosed, ih h.2 _ (List.forall_mem_singleton.mpr (h.1.expression _))⟩

end Lists

theorem expression_loose {source : Source} {kind : String} {start stop : Nat} {childless : Bool}
    {parts : List Construct} (h : ∀ p ∈ parts, Forming source p) (c : Cursor) :
    (expression source c (.node kind start stop childless parts)).1.Loose := by
  rw [expression]
  split
  · exact .leaf (isOrdinary_tokenKind _ _)
  · exact .node (expressions_loose h c)

theorem compound_formed {source : Source} {kind : String} {start stop : Nat} {childless : Bool}
    {parts : List Construct} (h : ∀ p ∈ parts, Forming source p) (c : Cursor)
    {symbol wrapper : Symbol} (hsymbol : compoundSymbol? kind = some symbol)
    (hwrapper : wrapper = .asyncStmt ∨ wrapper = .asyncFuncdef) :
    (compound source c symbol wrapper (.node kind start stop childless parts)).1.Formed ∧
      (compound source c symbol wrapper (.node kind start stop childless parts)).1.isForm =
        true := by
  unfold compound
  split
  · exact formed_block (by decide)
      ((stacked_standing (decorators_formed h c)).append (definitions_standing h _))
  · obtain ⟨hparts, hformed⟩ := matchParts_formed h c
    exact ⟨.node hparts hformed, rfl⟩
  · next hdecorated hmatch =>
    have hblock : symbol ∈ .decorated :: Grammar.blockForms := List.mem_cons_of_mem _
      (((compoundSymbol?_cases hsymbol).resolve_left hdecorated).resolve_left hmatch)
    split
    · exact formed_block hblock .nil
    · split
      · exact formed_wrapper hwrapper
          (formed_block hblock (clauses_standing (List.forall_mem_cons.mp h).2 _)) _ _
      · exact formed_block hblock (clauses_standing h c)

theorem forming (source : Source) (p : Construct) : Forming source p := by
  induction p with
  | node kind start stop childless parts h =>
    exact ⟨expression_loose h, expressions_loose h, fun c symbol wrapper => compound_formed h c,
      fun c => statements_stating h c (List.forall_mem_nil _), clauses_standing h,
      matchCases_standing h⟩

theorem lower_formed (text : String) (report : Report) :
    (Shape.node .fileInput (lower text report)).Formed := by
  have hstatements := @statements_stating (.ofText text) report.parts (fun p _ => forming _ p) .start
    .idle (List.forall_mem_nil _)
  refine .node ⟨_, _, rfl, rfl, fun s hs => Shape.isFree_of_isForm (hstatements s hs).2⟩
    (List.forall_mem_append.mpr ⟨fun s hs => (hstatements s hs).1, ?_⟩)
  exact List.forall_mem_singleton.mpr (formed_take .endMarker (by decide) _ _)

/-- Whatever was parsed, the lowered tree has the form that collapsing relies on. -/
theorem lower_statementForm (text : String) (report : Report) :
    (Tree.ofShapes .fileInput (lower text report)).StatementForm := by
  obtain ⟨root, hid, hshape, h, -⟩ := Tree.ofShapes_holds .fileInput (lower text report)
  exact h.statementForm (hshape ▸ lower_formed text report) (hshape ▸ rfl) hid

end Parse

end LineScope
