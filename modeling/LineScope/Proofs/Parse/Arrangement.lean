import LineScope.Proofs.Collapse.Safety
import LineScope.Proofs.Parse.RoundTrip

/-!
# Parsed files collapse

What lowering makes of a parse tree is arranged for collapsing, provided that headers stand where the
grammar of the language puts them. So a parsed file collapses without error.
-/
namespace LineScope

/-- No suite comes right after another; `blocked` says whether one stands in front. -/
def Headed : Bool → List Role → Prop
  | _, [] => True
  | blocked, r :: rest => (blocked = true → r ≠ .suite) ∧ Headed (r == .suite) rest

section Headed

variable {blocked : Bool} {xs ys : List Role}

theorem Headed.of_true (h : Headed true xs) (blocked : Bool) : Headed blocked xs := by
  cases xs with
  | nil => trivial
  | cons r rest => exact ⟨fun _ => h.1 rfl, h.2⟩

theorem Headed.append (hxs : Headed blocked xs) (hys : Headed true ys) :
    Headed blocked (xs ++ ys) := by
  induction xs generalizing blocked with
  | nil => exact hys.of_true blocked
  | cons r rest ih => exact ⟨hxs.1, ih hxs.2⟩

theorem headed_of_ne_suite (h : ∀ r ∈ xs, r ≠ .suite) (blocked : Bool) : Headed blocked xs := by
  induction xs generalizing blocked with
  | nil => trivial
  | cons r rest ih =>
    rw [List.forall_mem_cons] at h
    exact ⟨fun _ => h.1, ih h.2 _⟩

end Headed

namespace Shape

inductive Sound : Shape → Prop
  | leaf (token : Leaf) : Sound (.leaf token)
  | node {symbol : Symbol} {parts : List Shape} (nonempty : parts ≠ [])
      (laid : symbol.Laid (parts.map role)) (headed : Headed true (parts.map role))
      (sound : ∀ s ∈ parts, Sound s) : Sound (.node symbol parts)

theorem Plain.sound {s : Shape} (h : s.Plain) : s.Sound := by
  induction h with
  | leaf ordinary => exact .leaf _
  | @node name parts nonempty plain ih =>
    have hroles : ∀ r ∈ parts.map Shape.role, r = .inline := by
      intro r hr
      obtain ⟨s, hs, rfl⟩ := List.mem_map.mp hr
      exact (plain s hs).role
    exact .node nonempty hroles (headed_of_ne_suite (fun r hr => by rw [hroles r hr]; decide) _) ih

end Shape

namespace Branch

theorem led_of_headed {p : NodeId → Prop} {prev : Role} {bs : List Branch}
    (h : Headed (prev == .suite) (bs.map fun b => b.shape.role)) : Led p prev bs := by
  induction bs generalizing prev with
  | nil => trivial
  | cons b rest ih =>
    refine ⟨fun hprev n hn => ?_, ih h.2⟩
    exact absurd (role_of_opener? hn) (h.1 (by rw [hprev]; rfl))

theorem sound_of_shape {p : NodeId → Prop} {b : Branch} (h : b.shape.Sound) : b.Sound p := by
  induction b with
  | leaf id token => exact .leaf ..
  | node id symbol parts ih =>
    rw [shape, shapesOfAll_eq_map] at h
    cases h with
    | node nonempty laid headed sound =>
      have hmap : (parts.map shape).map Shape.role = parts.map fun b => b.shape.role := by
        rw [List.map_map]
        rfl
      rw [hmap] at laid headed
      refine .node ⟨?_, laid, led_of_headed headed⟩ fun b hb => ih b hb (sound _ ?_)
      · simpa using nonempty
      · exact List.mem_map_of_mem hb

end Branch

namespace Parse

namespace Construct

def isHeader (c : Construct) : Bool := c.kind != "block" && !isClause c.kind

def afterAsync : List Construct → List Construct
  | [] => []
  | c :: rest => if c.kind = "async" then rest else c :: rest

def needsHeader (kind : String) : Bool :=
  (compoundSymbol? kind).isSome || isClause kind || kind == "case_clause" || kind == "decorator"

/-- Whether every block comes right after a header; `headed` says whether one stands in front. -/
def blocksHeaded : Bool → List Construct → Bool
  | _, [] => true
  | headed, c :: rest => (c.kind != "block" || headed) && blocksHeaded c.isHeader rest

mutual

/-- What the grammar of the language promises of a node and of all those below it. A node with
children has some that are no extras, what needs a header starts with one, and so does every
block. -/
def isRegular : Construct → Bool
  | .node kind _ _ childless parts =>
    (childless || !parts.isEmpty) &&
      (!needsHeader kind || (afterAsync parts).head?.any isHeader) &&
      blocksHeaded false parts && areRegular parts

def areRegular : List Construct → Bool
  | [] => true
  | c :: rest => c.isRegular && areRegular rest

end

theorem isHeader_iff {p : Construct} :
    p.isHeader = true ↔ p.kind ≠ "block" ∧ isClause p.kind = false := by
  simp [isHeader]

theorem ne_block_of_isClause {kind : String} (h : isClause kind = true) : kind ≠ "block" := by
  rintro rfl
  exact absurd h (by decide)

theorem areRegular_iff {parts : List Construct} :
    areRegular parts = true ↔ ∀ c ∈ parts, c.isRegular = true := by
  induction parts with
  | nil => simp [areRegular]
  | cons c rest ih => simp [areRegular, ih]

/-- What is behind an `async` starts with a header, so the whole does. -/
theorem exists_header {parts : List Construct} (h : (afterAsync parts).head?.any isHeader = true) :
    ∃ first rest, parts = first :: rest ∧ first.isHeader = true := by
  cases parts with
  | nil => cases h
  | cons c rest =>
    refine ⟨c, rest, rfl, ?_⟩
    rw [afterAsync] at h
    split at h
    · next hasync =>
      rw [isHeader, hasync]
      rfl
    · exact h

end Construct

open Construct

theorem isLine_of_compoundSymbol? {kind : String} {symbol : Symbol}
    (h : compoundSymbol? kind = some symbol) : symbol.isLine = false ∧ symbol.role = .form := by
  obtain ⟨before, after, htable, -⟩ := List.lookup_eq_some_iff.mp h
  have hmem : (kind, symbol) ∈ before ++ (kind, symbol) :: after := by simp
  rw [← htable] at hmem
  simp only [List.mem_cons, Prod.mk.injEq, List.not_mem_nil, or_false] at hmem
  rcases hmem with ⟨-, rfl⟩ | ⟨-, rfl⟩ | ⟨-, rfl⟩ | ⟨-, rfl⟩ | ⟨-, rfl⟩ | ⟨-, rfl⟩ | ⟨-, rfl⟩ |
    ⟨-, rfl⟩ | ⟨-, rfl⟩ <;> exact ⟨rfl, rfl⟩

theorem kind_takeNewline (source : Source) (c : Cursor) :
    (c.takeNewline source).1.kind = .newline := by
  unfold Cursor.takeNewline
  split
  · rfl
  · split <;> rfl

theorem role_takeNewline (source : Source) (c : Cursor) :
    (Shape.leaf (c.takeNewline source).1).role = .newline := by
  rw [Shape.role, kind_takeNewline]
  rfl

theorem sound_line {symbol : Symbol} (hsymbol : symbol = .simpleStmt ∨ symbol = .decorator)
    {parts : List Shape} (hne : parts ≠ []) (hparts : ∀ s ∈ parts, s.Plain) (source : Source)
    (c : Cursor) : (Shape.node symbol (parts ++ [.leaf (c.takeNewline source).1])).Sound := by
  have hinline : ∀ r ∈ parts.map Shape.role, r = .inline := by
    intro r hr
    obtain ⟨s, hs, rfl⟩ := List.mem_map.mp hr
    exact (hparts s hs).role
  have hroles : (parts ++ [Shape.leaf (c.takeNewline source).1]).map Shape.role =
      parts.map Shape.role ++ [.newline] := by
    rw [List.map_append, List.map_singleton, role_takeNewline]
  refine .node (by simp) ?_ ?_ fun s hs => ?_
  · rw [hroles]
    rcases hsymbol with rfl | rfl <;>
      exact ⟨parts.map Shape.role, by simpa using hne, hinline, rfl⟩
  · rw [hroles]
    refine headed_of_ne_suite (fun r hr => ?_) _
    rcases List.mem_append.mp hr with hr | hr
    · rw [hinline r hr]
      decide
    · rw [List.mem_singleton.mp hr]
      decide
  · rcases List.mem_append.mp hs with hs | hs
    · exact (hparts s hs).sound
    · rw [List.mem_singleton.mp hs]
      exact .leaf _

def Fitting (roles : List Role) (shapes : List Shape) : Prop :=
  ∀ s ∈ shapes, s.Sound ∧ s.role ∈ roles

theorem Fitting.nil {roles : List Role} : Fitting roles [] := List.forall_mem_nil _

theorem Fitting.mono {roles roles' : List Role} {shapes : List Shape} (h : Fitting roles shapes)
    (hsub : roles ⊆ roles') : Fitting roles' shapes := fun s hs => ⟨(h s hs).1, hsub (h s hs).2⟩

theorem Fitting.append {roles : List Role} {xs ys : List Shape} (hxs : Fitting roles xs)
    (hys : Fitting roles ys) : Fitting roles (xs ++ ys) := fun s hs =>
  (List.mem_append.mp hs).elim (hxs s) (hys s)

theorem Fitting.cons {roles : List Role} (r : Role) {s : Shape} {shapes : List Shape}
    (hs : s.Sound) (hrole : s.role = r) (hr : r ∈ roles) (h : Fitting roles shapes) :
    Fitting roles (s :: shapes) :=
  List.forall_mem_cons.mpr ⟨⟨hs, hrole ▸ hr⟩, h⟩

theorem Fitting.forall_role {roles : List Role} {shapes : List Shape} (h : Fitting roles shapes) :
    ∀ r ∈ shapes.map Shape.role, r ∈ roles := by
  intro r hr
  obtain ⟨s, hs, rfl⟩ := List.mem_map.mp hr
  exact (h s hs).2

theorem sound_block {symbol : Symbol} (hline : symbol.isLine = false) (hsuite : symbol ≠ .suite)
    (hmatch : symbol ≠ .matchStmt) {shapes : List Shape} (hne : shapes ≠ [])
    (hfitting : Fitting [.inline, .suite, .form] shapes)
    (hheaded : Headed true (shapes.map Shape.role)) : (Shape.node symbol shapes).Sound := by
  refine .node hne (Symbol.laid_of_ne_newline hline hsuite hmatch fun r hr heq => ?_) hheaded
    fun s hs => (hfitting s hs).1
  have hmem := hfitting.forall_role r hr
  rw [heq] at hmem
  exact absurd hmem (by decide)

theorem sound_wrapper {symbol : Symbol} (hline : symbol.isLine = false) (hsuite : symbol ≠ .suite)
    (hmatch : symbol ≠ .matchStmt) {shapes : List Shape} (hne : shapes ≠ [])
    (hfitting : Fitting [.inline, .mark, .form] shapes) : (Shape.node symbol shapes).Sound := by
  refine .node hne (Symbol.laid_of_ne_newline hline hsuite hmatch fun r hr heq => ?_)
    (headed_of_ne_suite (fun r hr heq => ?_) _) fun s hs => (hfitting s hs).1 <;>
  · have hmem := hfitting.forall_role r hr
    rw [heq] at hmem
    exact absurd hmem (by decide)

theorem sound_suite {newline indent dedent : Leaf} {body : List Shape}
    (hnewline : newline.kind = .newline) (hindent : indent.kind = .indent)
    (hdedent : dedent.kind = .dedent) (hbody : Fitting [.form] body) :
    (Shape.node .suite (.leaf newline :: .leaf indent :: body ++ [.leaf dedent])).Sound := by
  have hnl : (Shape.leaf newline).role = .newline := by rw [Shape.role, hnewline]; rfl
  have hin : (Shape.leaf indent).role = .mark := by rw [Shape.role, hindent]; rfl
  have hde : (Shape.leaf dedent).role = .mark := by rw [Shape.role, hdedent]; rfl
  have hroles : ∀ r ∈ (body ++ [Shape.leaf dedent]).map Shape.role, r = .form ∨ r = .mark := by
    intro r hr
    rw [List.map_append, List.map_singleton, List.mem_append, List.mem_singleton, hde] at hr
    exact hr.imp (fun hr => List.mem_singleton.mp (hbody.forall_role r hr)) fun hr => hr
  refine .node (by simp) ⟨(body ++ [Shape.leaf dedent]).map Shape.role, fun r hr => ?_, ?_⟩ ?_
    fun s hs => ?_
  · rcases hroles r hr with rfl | rfl <;> decide
  · rw [List.cons_append, List.cons_append, List.map_cons, List.map_cons, hnl, hin]
  · refine headed_of_ne_suite (fun r hr => ?_) _
    rw [List.cons_append, List.cons_append, List.map_cons, List.map_cons, hnl, hin, List.mem_cons,
      List.mem_cons] at hr
    rcases hr with rfl | rfl | hr
    · decide
    · decide
    · rcases hroles r hr with rfl | rfl <;> decide
  · simp only [List.cons_append, List.mem_cons, List.mem_append, List.not_mem_nil, or_false] at hs
    rcases hs with rfl | rfl | hs | rfl
    · exact .leaf _
    · exact .leaf _
    · exact (hbody s hs).1
    · exact .leaf _

theorem stacked_fitting {shapes : List Shape} (h : Fitting [.form] shapes) :
    Fitting [.form] (stacked shapes) := by
  unfold stacked
  split
  · exact h
  · exact h
  · next hnil _ =>
    refine .cons .form (sound_wrapper (by decide) (by decide) (by decide) hnil ?_) rfl (by decide) .nil
    exact h.mono (by decide)

/-- Whatever is made of a regular node, or of its parts, is arranged for collapsing. -/
structure Lowered (source : Source) (p : Construct) : Prop where
  expression : ∀ c, (expression source c p).1.Plain
  expressions : ∀ c, ∀ s ∈ (expressions source c p.parts).1, s.Plain
  compound : ∀ c symbol wrapper, compoundSymbol? p.kind = some symbol →
    wrapper = .asyncStmt ∨ wrapper = .asyncFuncdef →
      (compound source c symbol wrapper p).1.Sound ∧
        (compound source c symbol wrapper p).1.role = .form
  statements : ∀ c, Fitting [.form] (statements source c .idle p.parts).1
  clauses : ∀ c, Fitting [.inline, .suite, .form] (clauses source c p.parts).1 ∧
    Headed true ((clauses source c p.parts).1.map Shape.role)
  matchCases : ∀ c, Fitting [.inline, .form] (matchCases source c p.parts).1
  nonempty : needsHeader p.kind = true → ∃ first rest, p.parts = first :: rest ∧ first.isHeader = true

theorem clauses_ne_nil {source : Source} {first : Construct} (hfirst : first.isHeader = true)
    (rest : List Construct) (c : Cursor) : (clauses source c (first :: rest)).1 ≠ [] := by
  cases first with
  | node kind start stop childless below =>
    obtain ⟨hblock, hclause⟩ := isHeader_iff.mp hfirst
    rw [Construct.kind] at hblock hclause
    rw [clauses, if_neg (by simp [hclause]), if_neg hblock]
    exact List.cons_ne_nil _ _

theorem Lowered.clauses_ne_nil {source : Source} {p : Construct} (h : Lowered source p)
    (hkind : needsHeader p.kind = true) (c : Cursor) : (Parse.clauses source c p.parts).1 ≠ [] := by
  obtain ⟨first, rest, hparts, hfirst⟩ := h.nonempty hkind
  rw [hparts]
  exact Parse.clauses_ne_nil hfirst rest c

section Lists

variable {source : Source} {parts : List Construct} (h : ∀ p ∈ parts, Lowered source p)
include h

theorem expressions_plain (c : Cursor) : ∀ s ∈ (expressions source c parts).1, s.Plain := by
  induction parts generalizing c with
  | nil =>
    rw [expressions]
    exact List.forall_mem_nil _
  | cons p rest ih =>
    rw [expressions]
    exact List.forall_mem_cons.mpr
      ⟨(h p List.mem_cons_self).expression c, ih (fun q hq => h q (List.mem_cons_of_mem _ hq)) _⟩

theorem matchCases_fitting (c : Cursor) : Fitting [.inline, .form] (matchCases source c parts).1 := by
  induction parts generalizing c with
  | nil =>
    rw [matchCases]
    exact .nil
  | cons p rest ih =>
    have hp := h p List.mem_cons_self
    have hrest := ih fun q hq => h q (List.mem_cons_of_mem _ hq)
    cases p with
    | node kind start stop childless below =>
      rw [matchCases]
      simp only
      by_cases hkind : kind = "case_clause"
      · simp only [if_pos hkind]
        obtain ⟨hfitting, hheaded⟩ := hp.clauses c
        have hne := hp.clauses_ne_nil (by simp [needsHeader, Construct.kind, hkind]) c
        exact .cons .form (sound_block (by decide) (by decide) (by decide) hne hfitting hheaded) rfl
          (by decide) (hrest _)
      · simp only [if_neg hkind]
        have hexpression := hp.expression c
        exact .cons .inline hexpression.sound hexpression.role (by decide) (hrest _)

theorem definitions_fitting (c : Cursor) :
    Fitting [.inline, .form] (definitions source c parts).1 := by
  induction parts generalizing c with
  | nil =>
    rw [definitions]
    exact .nil
  | cons p rest ih =>
    have hp := h p List.mem_cons_self
    have hrest := ih fun q hq => h q (List.mem_cons_of_mem _ hq)
    rw [definitions]
    split
    · exact hrest c
    · simp only
      cases hsymbol : compoundSymbol? p.kind with
      | some symbol =>
        obtain ⟨hsound, hrole⟩ := hp.compound c symbol .asyncFuncdef hsymbol (.inr rfl)
        exact .cons .form hsound hrole (by decide) (hrest _)
      | none =>
        have hexpression := hp.expression c
        exact .cons .inline hexpression.sound hexpression.role (by decide) (hrest _)

theorem decorators_fitting (c : Cursor) : Fitting [.form] (decorators source c parts).1 := by
  induction parts generalizing c with
  | nil =>
    rw [decorators]
    exact .nil
  | cons p rest ih =>
    have hp := h p List.mem_cons_self
    have hrest := ih fun q hq => h q (List.mem_cons_of_mem _ hq)
    cases p with
    | node kind start stop childless below =>
      rw [decorators]
      split
      · next hkind =>
        obtain ⟨first, more, hbelow, -⟩ := hp.nonempty (by simp [needsHeader, Construct.kind, hkind])
        refine .cons .form (sound_line (.inr rfl) ?_ (hp.expressions c) source _) rfl (by decide) (hrest _)
        rw [hbelow, expressions]
        exact List.cons_ne_nil _ _
      · exact hrest c

/-- The first part of a decorated definition leaves something behind. -/
theorem decorated_ne_nil (hne : parts ≠ []) (c c' : Cursor) :
    stacked (decorators source c parts).1 ++ (definitions source c' parts).1 ≠ [] := by
  obtain ⟨first, rest, rfl⟩ := List.exists_cons_of_ne_nil hne
  cases first with
  | node kind start stop childless below =>
    intro hnil
    obtain ⟨hheads, hbodies⟩ := List.append_eq_nil_iff.mp hnil
    by_cases hkind : kind = "decorator"
    · rw [decorators, if_pos hkind] at hheads
      unfold stacked at hheads
      split at hheads
      · next heq => cases heq
      · cases hheads
      · cases hheads
    · rw [definitions, Construct.kind, if_neg hkind] at hbodies
      cases hbodies

theorem matchParts_fitting (c : Cursor) :
    Fitting [.newline, .mark, .inline, .form] (matchParts source c parts).1 := by
  induction parts generalizing c with
  | nil =>
    rw [matchParts]
    exact .nil
  | cons p rest ih =>
    have hp := h p List.mem_cons_self
    have hrest := ih fun q hq => h q (List.mem_cons_of_mem _ hq)
    cases p with
    | node kind start stop childless below =>
      rw [matchParts]
      split
      · exact .cons .newline (.leaf _) (role_takeNewline source c) (by decide) <|
          .cons .mark (.leaf _) rfl (by decide) <| .append ((hp.matchCases _).mono (by decide)) <|
          .cons .mark (.leaf _) rfl (by decide) (hrest _)
      · have hexpression := hp.expression c
        exact .cons .inline hexpression.sound hexpression.role (by decide) (hrest _)

theorem matchParts_head {first : Construct} {rest : List Construct} (hparts : parts = first :: rest)
    (hfirst : first.isHeader = true) (c : Cursor) :
    ((matchParts source c parts).1.map Shape.role).head? = some .inline := by
  subst hparts
  cases first with
  | node kind start stop childless below =>
    have hblock := (isHeader_iff.mp hfirst).1
    rw [Construct.kind] at hblock
    rw [matchParts, if_neg hblock]
    simp only [List.map_cons, List.head?_cons, ((h _ List.mem_cons_self).expression c).role]

theorem clauses_fitting {headed : Bool} (hblocks : blocksHeaded headed parts = true) (c : Cursor) :
    Fitting [.inline, .suite, .form] (clauses source c parts).1 ∧
      Headed (!headed) ((clauses source c parts).1.map Shape.role) := by
  induction parts generalizing c headed with
  | nil =>
    rw [clauses]
    exact ⟨.nil, trivial⟩
  | cons p rest ih =>
    have hp := h p List.mem_cons_self
    obtain ⟨hblock, hafter⟩ : (p.kind != "block" || headed) = true ∧
        blocksHeaded p.isHeader rest = true := Bool.and_eq_true_iff.mp hblocks
    have hrest := ih (fun q hq => h q (List.mem_cons_of_mem _ hq)) hafter
    cases p with
    | node kind start stop childless below =>
      rw [clauses]
      split
      · next hclause =>
        have hheader : (Construct.node kind start stop childless below).isHeader = false := by
          simp [isHeader, Construct.kind, hclause]
        rw [hheader] at hrest
        obtain ⟨hfitting, hheaded⟩ := hp.clauses c
        refine ⟨hfitting.append (hrest _).1, ?_⟩
        rw [List.map_append]
        exact (hheaded.of_true _).append (hrest _).2
      · next hclause =>
        split
        · next hkind =>
          have hheader : (Construct.node kind start stop childless below).isHeader = false := by
            simp [isHeader, Construct.kind, hkind]
          have hheaded : headed = true := by simpa [Construct.kind, hkind] using hblock
          rw [hheader] at hrest
          subst hheaded
          split
          · exact ⟨(hrest c).1, (hrest c).2.of_true _⟩
          · simp only
            split
            · have hbody := hp.statements c
              refine ⟨(hbody.mono (by decide)).append (hrest _).1, ?_⟩
              rw [List.map_append]
              refine (headed_of_ne_suite (fun r hr heq => ?_) _).append (hrest _).2
              have hmem := hbody.forall_role r hr
              rw [heq] at hmem
              exact absurd hmem (by decide)
            · refine ⟨.cons .suite (sound_suite (kind_takeNewline ..) rfl rfl (hp.statements _))
                rfl (by decide) (hrest _).1, ?_⟩
              rw [List.map_cons]
              exact ⟨fun hfalse => (by cases hfalse), (hrest _).2⟩
        · next hkind =>
          have hheader : (Construct.node kind start stop childless below).isHeader = true := by
            simp [isHeader, Construct.kind, hkind, hclause]
          rw [hheader] at hrest
          have hexpression := hp.expression c
          refine ⟨.cons .inline hexpression.sound hexpression.role (by decide) (hrest _).1, ?_⟩
          rw [List.map_cons, hexpression.role]
          exact ⟨fun _ => (by decide), (hrest _).2⟩

omit h in
theorem close_fitting (c : Cursor) {pending : Pending} (hpending : ∀ s ∈ pending.parts, s.Plain) :
    Fitting [.form] (pending.close source c).1 := by
  rw [Pending.close]
  split
  · exact .nil
  · next hne =>
    exact .cons .form (sound_line (.inl rfl) (by simpa using hne) hpending source c) rfl (by decide) .nil

theorem statements_fitting (c : Cursor) {pending : Pending}
    (hpending : ∀ s ∈ pending.parts, s.Plain) :
    Fitting [.form] (statements source c pending parts).1 := by
  induction parts generalizing c pending with
  | nil =>
    rw [statements]
    exact close_fitting c hpending
  | cons p rest ih =>
    have hp := h p List.mem_cons_self
    have hrest (c : Cursor) {pending : Pending} (hpending : ∀ s ∈ pending.parts, s.Plain) :
        Fitting [.form] (statements source c pending rest).1 :=
      ih (fun q hq => h q (List.mem_cons_of_mem _ hq)) c hpending
    rw [statements]
    split
    · refine hrest _ fun s hs => ?_
      rcases List.mem_append.mp hs with hs | hs
      · exact hpending s hs
      · rw [List.mem_singleton.mp hs]
        exact hp.expression c
    · have hclosed : Fitting [.form] (pending.close source c).1 := close_fitting c hpending
      simp only
      split
      · next symbol hsymbol =>
        obtain ⟨hsound, hrole⟩ :=
          hp.compound (pending.close source c).2 symbol .asyncStmt hsymbol (.inl rfl)
        exact hclosed.append (.cons .form hsound hrole (by decide) (hrest _ (List.forall_mem_nil _)))
      · refine hclosed.append (hrest _ fun s hs => ?_)
        rw [List.mem_singleton.mp hs]
        exact hp.expression _

end Lists

section Node

variable {source : Source} {kind : String} {start stop : Nat} {childless : Bool}
  {parts : List Construct} (h : ∀ p ∈ parts, Lowered source p)
include h

theorem expression_plain (hne : childless = true ∨ parts ≠ []) (c : Cursor) :
    (expression source c (.node kind start stop childless parts)).1.Plain := by
  rw [expression]
  split
  · exact .leaf (isOrdinary_tokenKind _ _)
  · next hleaf =>
    have hparts : parts ≠ [] := hne.resolve_left fun htrue => hleaf (by simp [htrue])
    obtain ⟨first, rest, rfl⟩ := List.exists_cons_of_ne_nil hparts
    refine .node ?_ (expressions_plain h c)
    rw [expressions]
    exact List.cons_ne_nil _ _

theorem match_sound {first : Construct} {rest : List Construct} (hparts : parts = first :: rest)
    (hfirst : first.isHeader = true) (c : Cursor) :
    (Shape.node .matchStmt (matchParts source c parts).1).Sound := by
  have hfitting := matchParts_fitting h c
  have hhead := matchParts_head h hparts hfirst c
  have hsuite : ∀ r ∈ (matchParts source c parts).1.map Shape.role, r ≠ .suite := by
    intro r hr heq
    have hmem := hfitting.forall_role r hr
    rw [heq] at hmem
    exact absurd hmem (by decide)
  refine .node ?_ ⟨?_, hsuite⟩ (headed_of_ne_suite hsuite _) fun s hs => (hfitting s hs).1
  · intro hnil
    rw [hnil] at hhead
    cases hhead
  · rw [hhead]
    decide

theorem clauses_sound {symbol : Symbol} (hline : symbol.isLine = false) (hsuite : symbol ≠ .suite)
    (hmatch : symbol ≠ .matchStmt) {first : Construct} {rest : List Construct}
    (hparts : parts = first :: rest) (hfirst : first.isHeader = true) {headed : Bool}
    (hblocks : blocksHeaded headed parts = true) (c : Cursor) :
    (Shape.node symbol (clauses source c parts).1).Sound := by
  subst hparts
  have hfresh : blocksHeaded false (first :: rest) = true := by
    simp only [blocksHeaded, Bool.and_eq_true] at hblocks ⊢
    exact ⟨by simp [(isHeader_iff.mp hfirst).1], hblocks.2⟩
  obtain ⟨hfitting, hheaded⟩ := clauses_fitting h hfresh c
  exact sound_block hline hsuite hmatch (clauses_ne_nil hfirst rest c) hfitting hheaded

theorem compound_sound {symbol wrapper : Symbol}
    (hheader : (afterAsync parts).head?.any isHeader = true)
    (hblocks : blocksHeaded false parts = true) (hline : symbol.isLine = false)
    (hform : symbol.role = .form) (hwrapper : wrapper = .asyncStmt ∨ wrapper = .asyncFuncdef)
    (c : Cursor) :
    (compound source c symbol wrapper (.node kind start stop childless parts)).1.Sound ∧
      (compound source c symbol wrapper (.node kind start stop childless parts)).1.role =
        .form := by
  have hsuite : symbol ≠ .suite := by
    rintro rfl
    cases hform
  obtain ⟨first, more, hparts, hfirst⟩ := exists_header hheader
  unfold compound
  split
  · refine ⟨sound_wrapper (by decide) (by decide) (by decide) ?_ ?_, rfl⟩
    · exact decorated_ne_nil h (by simp [hparts]) c _
    · exact ((stacked_fitting (decorators_fitting h c)).mono (by decide)).append
        ((definitions_fitting h _).mono (by decide))
  · exact ⟨match_sound h hparts hfirst c, rfl⟩
  · next hmatch =>
    split
    · cases hparts
    · next kind start stop childless below rest =>
      split
      · next hasync =>
        rw [afterAsync, Construct.kind, if_pos hasync] at hheader
        obtain ⟨lead, hlead, hleadHeader⟩ := (Option.any_eq_true _ _).mp hheader
        obtain ⟨rest', rfl⟩ := List.head?_eq_some_iff.mp hlead
        have hbody := clauses_sound (fun p hp => h p (List.mem_cons_of_mem _ hp)) hline hsuite hmatch
          rfl hleadHeader (Bool.and_eq_true_iff.mp hblocks).2 (c.take source .async start stop).2
        have hpair : Fitting [.inline, .mark, .form]
            [.leaf (c.take source .async start stop).1, .node symbol
              (clauses source (c.take source .async start stop).2 (lead :: rest')).1] :=
          .cons .mark (.leaf _) rfl (by decide) (.cons .form hbody hform (by decide) .nil)
        rcases hwrapper with rfl | rfl <;>
          exact ⟨sound_wrapper (by decide) (by decide) (by decide) (by simp) hpair, rfl⟩
      · exact ⟨clauses_sound h hline hsuite hmatch hparts hfirst hblocks c, hform⟩

end Node

theorem lowered (source : Source) (p : Construct) (hp : p.isRegular = true) : Lowered source p := by
  induction p with
  | node kind start stop childless parts ih =>
    simp only [isRegular, Bool.and_eq_true, Bool.or_eq_true, Bool.not_eq_true',
      List.isEmpty_eq_false_iff, areRegular_iff] at hp
    obtain ⟨⟨⟨hne, hheader⟩, hblocks⟩, hregular⟩ := hp
    have hparts : ∀ p ∈ parts, Lowered source p := fun p hp => ih p hp (hregular p hp)
    have hneeds (hkind : needsHeader kind = true) : (afterAsync parts).head?.any isHeader = true :=
      hheader.resolve_left (by simp [hkind])
    refine ⟨expression_plain hparts hne, expressions_plain hparts, ?_, ?_,
      fun c => clauses_fitting hparts hblocks c, matchCases_fitting hparts,
      fun hkind => exists_header (hneeds hkind)⟩
    · intro c symbol wrapper hsymbol hwrapper
      obtain ⟨hline, hform⟩ := isLine_of_compoundSymbol? hsymbol
      have hkind : needsHeader kind = true := by
        simp [needsHeader, show compoundSymbol? kind = some symbol from hsymbol]
      exact compound_sound hparts (hneeds hkind) hblocks hline hform hwrapper c
    · exact fun c => statements_fitting hparts c (List.forall_mem_nil _)

/-- The statements of a file, and its end. -/
theorem lower_sound (text : String) (report : Report)
    (hreport : ∀ p ∈ report.parts, p.isRegular = true) :
    (Shape.node .fileInput (lower text report)).Sound := by
  have hstatements : Fitting [.form] (statements (.ofText text) .start .idle report.parts).1 :=
    statements_fitting (fun p hp => lowered _ p (hreport p hp)) .start (List.forall_mem_nil _)
  refine sound_wrapper (by decide) (by decide) (by decide) (by simp [lower]) ?_
  exact (hstatements.mono (by decide)).append (.cons .mark (.leaf _) rfl (by decide) .nil)

end Parse

/-- A file that was parsed collapses, whatever lines are asked for. -/
theorem Parse.collapseUnchanged_lower_ok (text : String) (report : Parse.Report)
    (hreport : ∀ p ∈ report.parts, p.isRegular = true) (ranges : List LineRange)
    (wholeStatements : Bool) :
    ∃ summary, ((Tree.ofShapes .fileInput (Parse.lower text report)).collapseUnchanged ranges
      wholeStatements).result = .ok summary := by
  obtain ⟨root, hid, hshape, hholds, -⟩ := Tree.ofShapes_holds .fileInput (Parse.lower text report)
  have hsound : root.shape.Sound := hshape ▸ Parse.lower_sound text report hreport
  have hgrows := hholds.grows root (List.mem_singleton_self root)
  have hsymbol : (Tree.ofShapes .fileInput (Parse.lower text report)).symbol? rootId =
      some .fileInput := by
    cases root with
    | leaf id token => cases hshape
    | node id symbol parts =>
      rw [Branch.shape, Shape.node.injEq] at hshape
      rw [← hid, Branch.id, hgrows.symbol?_node, hshape.1]
  exact Collapse.collapseUnchanged_ok hholds hid (Branch.sound_of_shape hsound) hsymbol ranges
    wholeStatements

/-- A decorated `async` function with a comment for its body, then a conditional on one line. -/
theorem Parse.collapseUnchanged_lower_ok_commented :
    ∃ summary, ((Tree.ofShapes .fileInput (Parse.lower "@d\nasync def f():\n  # c\nif a: b\n"
      (.node ⟨"module", 0, 32, false, false, false, false⟩
        [.node ⟨"decorated_definition", 0, 17, false, false, false, false⟩
          [.node ⟨"decorator", 0, 2, false, false, false, false⟩
            [.node ⟨"@", 0, 1, false, false, false, false⟩ [],
              .node ⟨"identifier", 1, 2, false, false, false, false⟩ []],
            .node ⟨"function_definition", 3, 17, false, false, false, false⟩
              [.node ⟨"async", 3, 8, false, false, false, false⟩ [],
                .node ⟨"def", 9, 12, false, false, false, false⟩ [],
                .node ⟨"identifier", 13, 14, false, false, false, false⟩ [],
                .node ⟨"parameters", 14, 16, false, false, false, false⟩
                  [.node ⟨"(", 14, 15, false, false, false, false⟩ [],
                    .node ⟨")", 15, 16, false, false, false, false⟩ []],
                .node ⟨":", 16, 17, false, false, false, false⟩ [],
                .node ⟨"comment", 20, 23, true, false, false, false⟩ [],
                .node ⟨"block", 17, 17, false, false, false, false⟩ []]],
          .node ⟨"if_statement", 24, 31, false, false, false, false⟩
            [.node ⟨"if", 24, 26, false, false, false, false⟩ [],
              .node ⟨"identifier", 27, 28, false, false, false, false⟩ [],
              .node ⟨":", 28, 29, false, false, false, false⟩ [],
              .node ⟨"block", 30, 31, false, false, false, false⟩
                [.node ⟨"identifier", 30, 31, false, false, false, false⟩ []]]]))).collapseUnchanged
      [] true).result = .ok summary :=
  Parse.collapseUnchanged_lower_ok _ _ (by decide +kernel) [] true

end LineScope
