import LineScope.Proofs.Parse.LaidOut

/-!
# Equations of lowering

What each routine of the lowering makes of a node of some kind, by projections.
-/
namespace LineScope.Parse

open Construct

section Clauses

variable {source : Source} {c : Cursor} {p : Construct} {rest : List Construct}

theorem clauses_of_isClause (h : isClause p.kind = true) :
    clauses source c (p :: rest) =
      ((clauses source c p.parts).1 ++ (clauses source (clauses source c p.parts).2 rest).1,
        (clauses source (clauses source c p.parts).2 rest).2) := by
  cases p with
  | node kind start stop childless parts =>
    rw [Construct.kind] at h
    simp only [clauses, h, if_true, Construct.parts]

theorem clauses_of_isHeader (h : p.isHeader = true) :
    clauses source c (p :: rest) =
      ((expression source c p).1 :: (clauses source (expression source c p).2 rest).1,
        (clauses source (expression source c p).2 rest).2) := by
  cases p with
  | node kind start stop childless parts =>
    obtain ⟨hblock, hclause⟩ := isHeader_iff.mp h
    rw [Construct.kind] at hblock hclause
    simp only [clauses, hclause, Bool.false_eq_true, if_false, if_neg hblock]

variable (hkind : p.kind = "block")
include hkind

theorem clauses_of_empty (hparts : p.parts = []) :
    clauses source c (p :: rest) = clauses source c rest := by
  cases p with
  | node kind start stop childless parts =>
    subst hkind
    rw [Construct.parts] at hparts
    simp [clauses, hparts, isClause]

variable {first : Construct} (hfirst : p.parts.head? = some first)
include hfirst

theorem clauses_of_inline
    (hline : source.index.lineOf first.start = source.index.lineOf (c.offset - 1)) :
    clauses source c (p :: rest) =
      ((statements source c .idle p.parts).1 ++
          (clauses source (statements source c .idle p.parts).2 rest).1,
        (clauses source (statements source c .idle p.parts).2 rest).2) := by
  cases p with
  | node kind start stop childless parts =>
    subst hkind
    rw [Construct.parts] at hfirst
    simp [clauses, hfirst, hline, isClause, Construct.parts]

theorem clauses_of_suite
    (hline : source.index.lineOf first.start ≠ source.index.lineOf (c.offset - 1)) :
    clauses source c (p :: rest) =
      let body := statements source (c.takeNewline source).2 .idle p.parts
      (.node .suite (.leaf (c.takeNewline source).1 ::
            .leaf (marker .indent (source.index.lineOf first.start)) ::
            body.1 ++ [.leaf (marker .dedent body.2.lastLine)]) :: (clauses source body.2 rest).1,
        (clauses source body.2 rest).2) := by
  cases p with
  | node kind start stop childless parts =>
    subst hkind
    rw [Construct.parts] at hfirst
    simp [clauses, hfirst, hline, isClause, Construct.parts]

end Clauses

section Match

variable {source : Source} {c : Cursor} {p : Construct} {rest : List Construct}

theorem matchParts_of_block (h : p.kind = "block") :
    matchParts source c (p :: rest) =
      let start := c.takeNewline source
      let cases := matchCases source start.2 p.parts
      (.leaf start.1 :: .leaf (marker .indent ((p.parts.head?.map fun first =>
            source.index.lineOf first.start).getD start.2.lastLine)) ::
          cases.1 ++ .leaf (marker .dedent cases.2.lastLine) :: (matchParts source cases.2 rest).1,
        (matchParts source cases.2 rest).2) := by
  cases p with
  | node kind start stop childless parts =>
    rw [Construct.kind] at h
    simp only [matchParts, if_pos h, Construct.parts]
    cases parts <;> rfl

theorem matchParts_of_header (h : p.kind ≠ "block") :
    matchParts source c (p :: rest) =
      ((expression source c p).1 :: (matchParts source (expression source c p).2 rest).1,
        (matchParts source (expression source c p).2 rest).2) := by
  cases p with
  | node kind start stop childless parts =>
    rw [Construct.kind] at h
    simp only [matchParts, if_neg h]

theorem matchCases_of_case (h : p.kind = "case_clause") :
    matchCases source c (p :: rest) =
      (.node .caseBlock (clauses source c p.parts).1 ::
          (matchCases source (clauses source c p.parts).2 rest).1,
        (matchCases source (clauses source c p.parts).2 rest).2) := by
  cases p with
  | node kind start stop childless parts =>
    rw [Construct.kind] at h
    simp only [matchCases, if_pos h, Construct.parts]

end Match

section Compound

variable {source : Source} {c : Cursor} {symbol wrapper : Symbol} {p : Construct}

theorem compound_decorated :
    compound source c .decorated wrapper p =
      let heads := decorators source c p.parts
      let bodies := definitions source heads.2 p.parts
      (.node .decorated (stacked heads.1 ++ bodies.1), bodies.2) := by
  cases p with
  | node kind start stop childless parts => simp only [compound, Construct.parts]

theorem compound_matchStmt :
    compound source c .matchStmt wrapper p =
      (.node .matchStmt (matchParts source c p.parts).1, (matchParts source c p.parts).2) := by
  cases p with
  | node kind start stop childless parts => simp only [compound, Construct.parts]

variable (hdecorated : symbol ≠ .decorated) (hmatch : symbol ≠ .matchStmt)
include hdecorated hmatch

theorem compound_of_async {first : Construct} {rest : List Construct}
    (hparts : p.parts = first :: rest) (hasync : first.kind = "async") :
    compound source c symbol wrapper p =
      let key := c.take source .async first.start first.stop
      (.node wrapper [.leaf key.1, .node symbol (clauses source key.2 rest).1],
        (clauses source key.2 rest).2) := by
  cases p with
  | node kind start stop childless parts =>
    cases first with
    | node kind' start' stop' childless' below =>
      rw [Construct.parts] at hparts
      rw [Construct.kind] at hasync
      subst hparts hasync
      unfold compound
      split
      · exact absurd rfl hdecorated
      · exact absurd rfl hmatch
      · simp only [if_true, Construct.start, Construct.stop]

theorem compound_of_clauses (hasync : ∀ first ∈ p.parts.head?, first.kind ≠ "async") :
    compound source c symbol wrapper p =
      (.node symbol (clauses source c p.parts).1, (clauses source c p.parts).2) := by
  cases p with
  | node kind start stop childless parts =>
    rw [Construct.parts] at hasync ⊢
    unfold compound
    split
    · exact absurd rfl hdecorated
    · exact absurd rfl hmatch
    · split
      · simp only [clauses]
      · next kind' start' stop' childless' below rest =>
        have hne : kind' ≠ "async" := hasync _ rfl
        simp only [if_neg hne]

end Compound

section Decorated

/-- Decorators come first, and what they decorate after them. -/
theorem exists_decorators {parts : List Construct} (h : decoratorsFirst parts = true) :
    ∃ heads bodies, parts = heads ++ bodies ∧ (∀ p ∈ heads, p.kind = "decorator") ∧
      ∀ p ∈ bodies, p.kind ≠ "decorator" := by
  induction parts with
  | nil => exact ⟨[], [], rfl, by simp, by simp⟩
  | cons p rest ih =>
    rw [decoratorsFirst] at h
    split at h
    · next hkind =>
      obtain ⟨heads, bodies, rfl, hheads, hbodies⟩ := ih h
      exact ⟨p :: heads, bodies, rfl, List.forall_mem_cons.mpr ⟨hkind, hheads⟩, hbodies⟩
    · next hkind =>
      refine ⟨[], p :: rest, rfl, by simp, List.forall_mem_cons.mpr ⟨hkind, fun q hq => ?_⟩⟩
      simpa using List.all_eq_true.mp h q hq

variable {source : Source} {heads bodies : List Construct}

theorem decorators_of_decorator {p : Construct} {rest : List Construct} {c : Cursor}
    (h : p.kind = "decorator") :
    decorators source c (p :: rest) =
      let parts := expressions source c p.parts
      let newline := parts.2.takeNewline source
      (.node .decorator (parts.1 ++ [.leaf newline.1]) :: (decorators source newline.2 rest).1,
        (decorators source newline.2 rest).2) := by
  cases p with
  | node kind start stop childless parts =>
    rw [Construct.kind] at h
    simp only [decorators, if_pos h, Construct.parts]

theorem decorators_append (hbodies : ∀ p ∈ bodies, p.kind ≠ "decorator") (c : Cursor) :
    decorators source c (heads ++ bodies) = decorators source c heads := by
  induction heads generalizing c with
  | nil =>
    induction bodies with
    | nil => rfl
    | cons p rest ih =>
      rw [List.forall_mem_cons] at hbodies
      cases p with
      | node kind start stop childless below =>
        have hkind : ¬kind = "decorator" := hbodies.1
        simpa [decorators, hkind] using ih hbodies.2
  | cons p rest ih =>
    cases p with
    | node kind start stop childless below =>
      simp only [List.cons_append, decorators, ih]

theorem definitions_append (hheads : ∀ p ∈ heads, p.kind = "decorator") (c : Cursor) :
    definitions source c (heads ++ bodies) = definitions source c bodies := by
  induction heads with
  | nil => rfl
  | cons p rest ih =>
    rw [List.forall_mem_cons] at hheads
    rw [List.cons_append, definitions, if_pos hheads.1]
    exact ih hheads.2

end Decorated

end LineScope.Parse
