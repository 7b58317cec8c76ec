import LineScope.Proofs.Collapse.Grammar
import LineScope.Proofs.Tree.Walks

/-!
# Statement form

Where collapsing looks for newlines, marks of indentation and `async` tokens. `Symbol.Forms` says how
the parts of a node stand, and `Symbol.Forms.place` reads off it where a token that is not ordinary
can be. `Tree.StatementForm` says the same of a store, node by node; a store has it if it holds the
branch of a file in form.
-/
namespace LineScope

namespace Shape

/-- Ordinary tokens and nodes of them, which may be empty. -/
inductive Loose : Shape → Prop
  | leaf {token : Leaf} (ordinary : token.kind.isOrdinary = true) : Loose (.leaf token)
  | node {name : String} {parts : List Shape} (loose : ∀ s ∈ parts, Loose s) :
      Loose (.node (.other name) parts)

def isForm : Shape → Bool
  | .leaf _ => false
  | .node symbol _ => symbol != .fileInput

def isFree : Shape → Bool
  | .leaf token => token.kind.isOrdinary
  | .node symbol _ => symbol != .fileInput

theorem isFree_of_isForm {s : Shape} (h : s.isForm = true) : s.isFree = true := by
  cases s with
  | leaf token => cases h
  | node symbol parts => exact h

theorem Loose.isFree {s : Shape} (h : s.Loose) : s.isFree = true := by
  cases h with
  | leaf ordinary => exact ordinary
  | node loose => rfl

/-- Every newline comes right before an indent, and other tokens are ordinary or marks of
indentation. -/
def MatchParts : List Shape → Prop
  | [] => True
  | s :: rest =>
    (s.isFree = true ∨ s.kind? = some .indent ∨ s.kind? = some .dedent ∨
      s.kind? = some .newline ∧ rest.head?.bind kind? = some .indent) ∧ MatchParts rest

theorem matchParts_append {parts more : List Shape} (hparts : ∀ s ∈ parts, s.isFree = true)
    (hmore : MatchParts more) : MatchParts (parts ++ more) := by
  induction parts with
  | nil => exact hmore
  | cons s rest ih =>
    rw [List.forall_mem_cons] at hparts
    exact ⟨.inl hparts.1, ih hparts.2⟩

end Shape

def Symbol.Forms : Symbol → List Shape → Prop
  | .fileInput, parts => ∃ init last, parts = init ++ [.leaf last] ∧ last.kind = .endMarker ∧
    ∀ s ∈ init, s.isFree = true
  | .simpleStmt, parts | .decorator, parts => ∃ init newline, parts = init ++ [.leaf newline] ∧
    newline.kind = .newline ∧ ∀ s ∈ init, s.isFree = true
  | .suite, parts => ∃ newline indent body dedent,
    parts = .leaf newline :: .leaf indent :: body ++ [.leaf dedent] ∧ newline.kind = .newline ∧
      indent.kind = .indent ∧ dedent.kind = .dedent ∧ body ≠ [] ∧ ∀ s ∈ body, s.isForm = true
  | .matchStmt, parts => Shape.MatchParts parts
  | .asyncStmt, parts | .asyncFuncdef, parts => ∃ key block, parts = [.leaf key, block] ∧
    key.kind = .async ∧ block.isForm = true
  | .decorators, parts => 2 ≤ parts.length ∧ ∀ s ∈ parts, s.symbol? = some .decorator
  | .other _, parts => ∀ s ∈ parts, s.Loose
  | _, parts => ∀ s ∈ parts, s.isFree = true

/-- Where a token that is not ordinary may stand: below which symbol, and between which parts. -/
inductive TokenKind.Place : TokenKind → Symbol → List Shape → List Shape → Prop
  | fileEnd {before : List Shape} : Place .endMarker .fileInput before []
  | lineEnd {symbol : Symbol} {before : List Shape}
      (line : symbol = .simpleStmt ∨ symbol = .decorator) : Place .newline symbol before []
  | suiteStart {after : List Shape} : Place .newline .suite [] after
  | matchBreak {before after : List Shape} (indented : after.head?.bind Shape.kind? = some .indent) :
      Place .newline .matchStmt before after
  | mark {kind : TokenKind} {symbol : Symbol} {before after : List Shape}
      (kinds : kind = .indent ∨ kind = .dedent) (block : symbol = .suite ∨ symbol = .matchStmt) :
      Place kind symbol before after
  | lead {symbol : Symbol} {after : List Shape}
      (wrapper : symbol = .asyncStmt ∨ symbol = .asyncFuncdef) : Place .async symbol [] after

namespace Symbol.Forms

variable {symbol : Symbol} {before after : List Shape} {token : Leaf}

theorem mem_or_last {init : List Shape} {x y : Shape} (h : before ++ y :: after = init ++ [x]) :
    y ∈ init ∨ after = [] ∧ y = x := by
  rcases List.eq_nil_or_concat after with rfl | ⟨after, last, rfl⟩
  · exact .inr ⟨rfl, List.singleton_inj.mp (List.append_inj_right' h rfl)⟩
  · rw [List.concat_eq_append, ← List.cons_append, ← List.append_assoc] at h
    rw [← List.append_inj_left' h rfl]
    exact .inl (by simp)

theorem place_matchParts (h : Shape.MatchParts (before ++ .leaf token :: after)) :
    token.kind.isOrdinary = true ∨ token.kind.Place .matchStmt before after := by
  suffices hall : token.kind.isOrdinary = true ∨ ∀ before, token.kind.Place .matchStmt before after by
    exact hall.imp_right fun hplace => hplace before
  induction before with
  | cons s before ih => exact ih h.2
  | nil =>
    rcases h.1 with hfree | hindent | hdedent | ⟨hnewline, hnext⟩
    · exact .inl hfree
    · exact .inr fun before => .mark (.inl (Option.some.inj hindent)) (.inr rfl)
    · exact .inr fun before => .mark (.inr (Option.some.inj hdedent)) (.inr rfl)
    · refine .inr fun before => ?_
      rw [Option.some.inj hnewline]
      exact .matchBreak hnext

theorem place_suite (h : Forms .suite (before ++ .leaf token :: after)) :
    token.kind.Place .suite before after := by
  obtain ⟨newline, indent, body, dedent, heq, hnewline, hindent, hdedent, -, hbody⟩ := h
  cases before with
  | nil =>
    rw [Shape.leaf.inj (List.cons.inj heq).1, hnewline]
    exact .suiteStart
  | cons s before =>
    have hmem : Shape.leaf token ∈ .leaf indent :: (body ++ [.leaf dedent]) := by
      rw [← show _ = .leaf indent :: (body ++ [.leaf dedent]) from (List.cons.inj heq).2]
      simp
    rw [List.mem_cons, List.mem_append, List.mem_singleton] at hmem
    rcases hmem with hin | hin | hin
    · exact .mark (.inl (by rw [Shape.leaf.inj hin, hindent])) (.inl rfl)
    · cases hbody _ hin
    · exact .mark (.inr (by rw [Shape.leaf.inj hin, hdedent])) (.inl rfl)

theorem place_wrapper {key : Leaf} {block : Shape} (hsymbol : symbol = .asyncStmt ∨ symbol = .asyncFuncdef)
    (heq : before ++ .leaf token :: after = [.leaf key, block]) (hkey : key.kind = .async)
    (hblock : block.isForm = true) : token.kind.Place symbol before after := by
  cases before with
  | nil =>
    rw [Shape.leaf.inj (List.cons.inj heq).1, hkey]
    exact .lead hsymbol
  | cons s before =>
    have hmem : Shape.leaf token ∈ [block] := by
      rw [← (List.cons.inj heq).2]
      simp
    rw [← List.mem_singleton.mp hmem] at hblock
    cases hblock

/-- A token that is not ordinary stands where its kind belongs. -/
theorem place (h : symbol.Forms (before ++ .leaf token :: after)) :
    token.kind.isOrdinary = true ∨ token.kind.Place symbol before after := by
  have hline (hsymbol : symbol = .simpleStmt ∨ symbol = .decorator)
      (h : ∃ init newline, before ++ .leaf token :: after = init ++ [.leaf newline] ∧
        newline.kind = .newline ∧ ∀ s ∈ init, s.isFree = true) :
      token.kind.isOrdinary = true ∨ token.kind.Place symbol before after := by
    obtain ⟨init, newline, heq, hkind, hinit⟩ := h
    rcases mem_or_last heq with hmem | ⟨rfl, hlast⟩
    · exact .inl (hinit _ hmem)
    · rw [Shape.leaf.inj hlast, hkind]
      exact .inr (.lineEnd hsymbol)
  have hfree (h : ∀ s ∈ before ++ .leaf token :: after, s.isFree = true) :
      token.kind.isOrdinary = true := h (.leaf token) (by simp)
  cases symbol with
  | fileInput =>
    obtain ⟨init, last, heq, hkind, hinit⟩ := h
    rcases mem_or_last heq with hmem | ⟨rfl, hlast⟩
    · exact .inl (hinit _ hmem)
    · rw [Shape.leaf.inj hlast, hkind]
      exact .inr .fileEnd
  | simpleStmt => exact hline (.inl rfl) h
  | decorator => exact hline (.inr rfl) h
  | suite => exact .inr (place_suite h)
  | matchStmt => exact place_matchParts h
  | asyncStmt =>
    obtain ⟨key, block, heq, hkey, hblock⟩ := h
    exact .inr (place_wrapper (.inl rfl) heq hkey hblock)
  | asyncFuncdef =>
    obtain ⟨key, block, heq, hkey, hblock⟩ := h
    exact .inr (place_wrapper (.inr rfl) heq hkey hblock)
  | decorators => cases h.2 (.leaf token) (by simp)
  | other name => exact .inl (h (.leaf token) (by simp)).isFree
  | _ => exact .inl (hfree h)

end Symbol.Forms

namespace Shape

/-- All nodes of a shape have their parts in form, marks of indentation have no text, and nothing is
verbatim. -/
inductive Formed : Shape → Prop
  | leaf {token : Leaf} (fresh : token.kind ≠ .verbatim)
      (bare : token.kind = .indent ∨ token.kind = .dedent → token.trivia = "" ∧ token.value = "") :
      Formed (.leaf token)
  | node {symbol : Symbol} {parts : List Shape} (forms : symbol.Forms parts)
      (formed : ∀ s ∈ parts, Formed s) : Formed (.node symbol parts)

theorem Loose.formed {s : Shape} (h : s.Loose) : s.Formed := by
  induction h with
  | @leaf token ordinary =>
    refine .leaf (fun hkind => ?_) fun hkind => ?_
    · rw [hkind] at ordinary
      cases ordinary
    · rcases hkind with hkind | hkind <;>
      · rw [hkind] at ordinary
        cases ordinary
  | node loose ih => exact .node loose ih

theorem Formed.tokens {s : Shape} (h : s.Formed) : ∀ x ∈ s.tokens, x.kind ≠ .verbatim ∧
    (x.kind = .indent ∨ x.kind = .dedent → x.trivia = "" ∧ x.value = "") := by
  induction h with
  | leaf fresh bare =>
    rw [Shape.tokens, List.forall_mem_singleton]
    exact ⟨fresh, bare⟩
  | node _ _ ih =>
    intro x hx
    rw [Shape.tokens, tokensOfAll_eq_flatMap, List.mem_flatMap] at hx
    obtain ⟨s, hs, hx⟩ := hx
    exact ih s hs x hx

end Shape

section Trees

variable {t : Tree} {parent : Option NodeId} {b : Branch}

theorem Branch.formed_node {id : NodeId} {symbol : Symbol} {parts : List Branch}
    (h : (Branch.node id symbol parts).shape.Formed) :
    symbol.Forms (parts.map Branch.shape) ∧ ∀ b ∈ parts, b.shape.Formed := by
  rw [Branch.shape, Branch.shapesOfAll_eq_map] at h
  cases h with
  | node forms formed => exact ⟨forms, fun b hb => formed _ (List.mem_map_of_mem hb)⟩

/-- What fills a gap in a branch in form is in form, and stands in form below the node above. -/
theorem Context.formed_of_fill {c : Context} {run : List Branch}
    (h : ∀ b ∈ c.fill run, b.shape.Formed) :
    (∀ b ∈ run, b.shape.Formed) ∧
      ∀ f ∈ c.head?, f.symbol.Forms ((f.before ++ run ++ f.after).map Branch.shape) := by
  induction c generalizing run with
  | nil => exact ⟨h, by simp⟩
  | cons f above ih =>
    obtain ⟨hforms, hformed⟩ := Branch.formed_node ((ih h).1 _ (List.mem_singleton_self _))
    refine ⟨fun b hb => hformed b (by simp [hb]), fun g hg => ?_⟩
    obtain rfl := Option.some.inj hg
    exact hforms

theorem Branch.loose_of_mem_ids (h : b.shape.Loose) (hgrows : t.Grows parent b) {n : NodeId}
    (hn : n ∈ b.ids) : (∃ name, t.symbol? n = some (.other name)) ∨
      ∃ kind, t.kind? n = some kind ∧ kind.isOrdinary = true := by
  induction b generalizing parent with
  | leaf id token =>
    rw [Branch.ids, List.mem_singleton] at hn
    cases h with
    | leaf ordinary => exact .inr ⟨token.kind, by rw [hn]; exact hgrows.kind?_eq, ordinary⟩
  | node id symbol parts ih =>
    rw [Branch.shape, Branch.shapesOfAll_eq_map] at h
    cases h with
    | node loose =>
      rw [Branch.ids, List.mem_cons, Branch.idsOfAll_eq_flatMap, List.mem_flatMap] at hn
      rcases hn with rfl | ⟨b, hb, hn⟩
      · exact .inl ⟨_, hgrows.symbol?_node⟩
      · exact ih b hb (loose _ (List.mem_map_of_mem hb)) (hgrows.part hb) hn

end Trees

/-- The form that collapsing relies on, node by node. -/
structure Tree.StatementForm (t : Tree) : Prop where
  /-- The file ends with an end marker, and there is no other. -/
  endMarker : ∃ init last, t.children rootId = init ++ [last] ∧
    ∀ n ∈ t.descendants rootId, t.kind? n = some .endMarker ↔ n = last
  line : ∀ n ∈ t.descendants rootId,
    t.symbol? n = some .simpleStmt ∨ t.symbol? n = some .decorator →
      ∃ init last, t.children n = init ++ [last] ∧ t.kind? last = some .newline
  suite : ∀ n ∈ t.descendants rootId, t.symbol? n = some .suite →
    ∃ newline indent body dedent, t.children n = newline :: indent :: body ++ [dedent] ∧
      t.kind? newline = some .newline ∧ t.kind? indent = some .indent ∧
      t.kind? dedent = some .dedent ∧ body ≠ [] ∧ ∀ m ∈ body, (t.symbol? m).isSome = true
  /-- A newline ends a simple statement or a decorator, starts a suite, or is followed by the indent
  of a match. -/
  newline : ∀ n ∈ t.descendants rootId, t.kind? n = some .newline →
    ∃ p before after, t.parent? n = some p ∧ t.children p = before ++ n :: after ∧
      ((t.symbol? p = some .simpleStmt ∨ t.symbol? p = some .decorator) ∧ after = [] ∨
        t.symbol? p = some .suite ∧ before = [] ∨
        t.symbol? p = some .matchStmt ∧ after.head?.bind t.kind? = some .indent)
  mark : ∀ n ∈ t.descendants rootId, ∀ token, t.leaf? n = some token →
    token.kind = .indent ∨ token.kind = .dedent →
      token.trivia = "" ∧ token.value = "" ∧ ∃ p, t.parent? n = some p ∧
        (t.symbol? p = some .suite ∨ t.symbol? p = some .matchStmt)
  async : ∀ n ∈ t.descendants rootId, t.kind? n = some .async →
    ∃ p, t.parent? n = some p ∧ (t.children p).head? = some n ∧
      (t.symbol? p = some .asyncStmt ∨ t.symbol? p = some .asyncFuncdef)
  wrapper : ∀ n ∈ t.descendants rootId,
    t.symbol? n = some .asyncStmt ∨ t.symbol? n = some .asyncFuncdef →
      ∃ key block, t.children n = [key, block] ∧ t.kind? key = some .async
  decorators : ∀ n ∈ t.descendants rootId, t.symbol? n = some .decorators →
    2 ≤ (t.children n).length ∧ ∀ m ∈ t.children n, t.symbol? m = some .decorator
  other : ∀ n ∈ t.descendants rootId, ∀ name, t.symbol? n = some (.other name) →
    ∀ m ∈ t.descendants n, (∃ name, t.symbol? m = some (.other name)) ∨
      ∃ kind, t.kind? m = some kind ∧ kind.isOrdinary = true
  fresh : ∀ n ∈ t.descendants rootId, t.kind? n ≠ some .verbatim

theorem Symbol.Forms.file_not_mem {symbol : Symbol} {parts : List Shape} (h : symbol.Forms parts) :
    ∀ s ∈ parts, s.symbol? ≠ some .fileInput := by
  have hfree {s : Shape} (hs : s.isFree = true) : s.symbol? ≠ some .fileInput := by
    cases s with
    | leaf token => simp [Shape.symbol?]
    | node symbol parts => simpa [Shape.isFree, Shape.symbol?] using hs
  have hends {init : List Shape} {last : Leaf} (hinit : ∀ s ∈ init, s.isFree = true) :
      ∀ s ∈ init ++ [.leaf last], s.symbol? ≠ some .fileInput := by
    simp only [List.forall_mem_append, List.forall_mem_singleton]
    exact ⟨fun s hs => hfree (hinit s hs), by simp [Shape.symbol?]⟩
  cases symbol with
  | fileInput | simpleStmt | decorator =>
    obtain ⟨init, last, rfl, -, hinit⟩ := h
    exact hends hinit
  | suite =>
    obtain ⟨newline, indent, body, dedent, rfl, -, -, -, -, hbody⟩ := h
    have hstart : ∀ s ∈ [Shape.leaf newline, .leaf indent], s.symbol? ≠ some .fileInput := by
      simp [Shape.symbol?]
    refine List.forall_mem_append.mpr ⟨fun s hs => ?_, by simp [Shape.symbol?]⟩
    rcases List.mem_append.mp (show s ∈ [.leaf newline, .leaf indent] ++ body from hs) with hs | hs
    · exact hstart s hs
    · exact hfree (Shape.isFree_of_isForm (hbody s hs))
  | matchStmt =>
    induction parts with
    | nil => exact List.forall_mem_nil _
    | cons s rest ih =>
      refine List.forall_mem_cons.mpr ⟨?_, ih h.2⟩
      cases s with
      | leaf token => simp [Shape.symbol?]
      | node symbol parts =>
        refine hfree (h.1.resolve_right ?_)
        simp [Shape.kind?]
  | asyncStmt | asyncFuncdef =>
    obtain ⟨key, block, rfl, -, hblock⟩ := h
    exact List.forall_mem_cons.mpr ⟨by simp [Shape.symbol?],
      List.forall_mem_singleton.mpr (hfree (Shape.isFree_of_isForm hblock))⟩
  | decorators =>
    intro s hs
    rw [h.2 s hs]
    decide
  | other name => exact fun s hs => hfree (h s hs).isFree
  | _ => exact fun s hs => hfree (h s hs)

namespace Tree

section Places

variable {t : Tree} {root : Branch} (h : t.Holds [root])
include h

/-- Every node below the root stands in the gap of some context. -/
theorem Holds.exists_place {n : NodeId} (hn : n ∈ root.ids) :
    ∃ (c : Context) (x : Branch), x.id = n ∧ c.fill [x] = [root] ∧ t.Holds (c.fill [x] ++ []) := by
  obtain ⟨c, x, hfill, hx⟩ := Context.exists_fill hn
  exact ⟨c, x, hx, hfill, by rwa [hfill, List.append_nil]⟩

variable (hformed : root.shape.Formed)
include hformed

theorem Holds.forms {n : NodeId} (hn : n ∈ root.ids) {symbol : Symbol}
    (hsymbol : t.symbol? n = some symbol) :
    ∃ parts : List Branch, t.children n = parts.map Branch.id ∧ (∀ b ∈ parts, t.Grows (some n) b) ∧
      (Branch.idsOfAll parts).Nodup ∧ symbol.Forms (parts.map Branch.shape) := by
  obtain ⟨c, x, rfl, hfill, hplace⟩ := h.exists_place hn
  have hgrows : t.Grows c.parent x := hplace.run_grows x (by simp)
  have hrun := (@Context.formed_of_fill c [x] (by simpa [hfill] using hformed)).1
  have hx : x.shape.Formed := hrun x (by simp)
  cases x with
  | leaf id token => simp [Branch.id, hgrows.symbol?_leaf] at hsymbol
  | node id symbol' parts =>
    obtain rfl : symbol' = symbol := by simpa [Branch.id, hgrows.symbol?_node] using hsymbol
    have hnodup : (Branch.node id symbol' parts).ids.Nodup := by
      simpa [Branch.idsOfAll] using hplace.run_nodup
    exact ⟨parts, hgrows.children_node, fun b hb => hgrows.part hb,
      (List.nodup_cons.mp hnodup).2, (Branch.formed_node hx).1⟩

theorem Holds.leaf_place (hroot : root.shape.symbol? = some .fileInput) {n : NodeId} (hn : n ∈ root.ids)
    {token : Leaf} (htoken : t.leaf? n = some token) :
    (Shape.leaf token).Formed ∧ (token.kind.isOrdinary = true ∨
      ∃ (f : Frame) (above : Context), Context.fill (f :: above) [.leaf n token] = [root] ∧
        t.Holds (Context.fill (f :: above) [.leaf n token] ++ []) ∧
        token.kind.Place f.symbol (f.before.map Branch.shape) (f.after.map Branch.shape)) := by
  obtain ⟨c, x, rfl, hfill, hplace⟩ := h.exists_place hn
  obtain ⟨hrun, hframe⟩ := @Context.formed_of_fill c [x] (by simpa [hfill] using hformed)
  have hgrows : t.Grows c.parent x := hplace.run_grows x (by simp)
  cases x with
  | node id symbol parts => simp [Branch.id, hgrows.leaf?_node] at htoken
  | leaf id token' =>
    obtain rfl : token' = token := by simpa [Branch.id, hgrows.leaf?_leaf] using htoken
    refine ⟨hrun (.leaf id token') (by simp), ?_⟩
    cases c with
    | nil =>
      rw [Context.fill, List.singleton_inj] at hfill
      simp [← hfill, Branch.shape, Shape.symbol?] at hroot
    | cons f above =>
      have hforms := hframe f (by simp)
      simp only [List.map_append, List.map_cons, List.append_assoc] at hforms
      exact hforms.place.imp_right fun hkind => ⟨f, above, hfill, hplace, hkind⟩

omit h hformed in
theorem exists_last {p : NodeId} {parts : List Branch} (hgrows : ∀ b ∈ parts, t.Grows (some p) b)
    {init : List Shape} {token : Leaf} (heq : parts.map Branch.shape = init ++ [.leaf token]) :
    ∃ (front : List NodeId) (last : NodeId), parts.map Branch.id = front ++ [last] ∧
      t.kind? last = some token.kind := by
  obtain ⟨before, ends, rfl, -, hends⟩ := List.map_eq_append_iff.mp heq
  obtain ⟨b, rfl, hb⟩ := List.map_eq_singleton_iff.mp hends
  refine ⟨before.map Branch.id, b.id, by simp, ?_⟩
  rw [(hgrows b (by simp)).kind?_eq, hb, Shape.kind?]

theorem Holds.line {n : NodeId} (hn : n ∈ root.ids)
    (hsymbol : t.symbol? n = some .simpleStmt ∨ t.symbol? n = some .decorator) :
    ∃ init last, t.children n = init ++ [last] ∧ t.kind? last = some .newline := by
  have hparts : ∃ parts : List Branch, t.children n = parts.map Branch.id ∧
      (∀ b ∈ parts, t.Grows (some n) b) ∧ ∃ init newline,
        parts.map Branch.shape = init ++ [.leaf newline] ∧ newline.kind = .newline := by
    rcases hsymbol with hsymbol | hsymbol <;>
    · obtain ⟨parts, hchildren, hgrows, -, init, newline, heq, hkind, -⟩ :=
        h.forms hformed hn hsymbol
      exact ⟨parts, hchildren, hgrows, init, newline, heq, hkind⟩
  obtain ⟨parts, hchildren, hgrows, init, newline, heq, hkind⟩ := hparts
  obtain ⟨front, last, hids, hlast⟩ := exists_last hgrows heq
  exact ⟨front, last, hchildren.trans hids, hkind ▸ hlast⟩

theorem Holds.suite {n : NodeId} (hn : n ∈ root.ids) (hsymbol : t.symbol? n = some .suite) :
    ∃ newline indent body dedent, t.children n = newline :: indent :: body ++ [dedent] ∧
      t.kind? newline = some .newline ∧ t.kind? indent = some .indent ∧
      t.kind? dedent = some .dedent ∧ body ≠ [] ∧ ∀ m ∈ body, (t.symbol? m).isSome = true := by
  obtain ⟨parts, hchildren, hgrows, -, newline, indent, body, dedent, heq, hnewline, hindent, hdedent,
    hne, hbody⟩ := h.forms hformed hn hsymbol
  obtain ⟨first, rest, rfl, hfirst, hrest⟩ := List.map_eq_cons_iff.mp heq
  obtain ⟨second, rest, rfl, hsecond, hrest⟩ := List.map_eq_cons_iff.mp hrest
  obtain ⟨inner, ends, rfl, hinner, hends⟩ := List.map_eq_append_iff.mp hrest
  obtain ⟨last, rfl, hlast⟩ := List.map_eq_singleton_iff.mp hends
  have hkind {b : Branch} (hb : b ∈ first :: second :: (inner ++ [last])) {token : Leaf}
      (hshape : b.shape = .leaf token) : t.kind? b.id = some token.kind := by
    rw [(hgrows b hb).kind?_eq, hshape, Shape.kind?]
  refine ⟨first.id, second.id, inner.map Branch.id, last.id, by simp [hchildren], ?_, ?_, ?_, ?_, ?_⟩
  · rw [hkind (by simp) hfirst, hnewline]
  · rw [hkind (by simp) hsecond, hindent]
  · rw [hkind (by simp) hlast, hdedent]
  · rintro hnil
    rw [List.map_eq_nil_iff] at hnil
    exact hne (by rw [← hinner, hnil, List.map_nil])
  · intro m hm
    obtain ⟨b, hb, rfl⟩ := List.mem_map.mp hm
    have hform : b.shape.isForm = true := hbody _ (hinner ▸ List.mem_map_of_mem hb)
    rw [(hgrows b (by simp [hb])).symbol?_eq]
    cases hshape : b.shape with
    | leaf token => simp [hshape, Shape.isForm] at hform
    | node symbol parts => rfl

theorem Holds.wrapper {n : NodeId} (hn : n ∈ root.ids)
    (hsymbol : t.symbol? n = some .asyncStmt ∨ t.symbol? n = some .asyncFuncdef) :
    ∃ key block, t.children n = [key, block] ∧ t.kind? key = some .async := by
  have hparts : ∃ parts : List Branch, t.children n = parts.map Branch.id ∧
      (∀ b ∈ parts, t.Grows (some n) b) ∧ ∃ key block,
        parts.map Branch.shape = [.leaf key, block] ∧ key.kind = .async := by
    rcases hsymbol with hsymbol | hsymbol <;>
    · obtain ⟨parts, hchildren, hgrows, -, key, block, heq, hkey, -⟩ := h.forms hformed hn hsymbol
      exact ⟨parts, hchildren, hgrows, key, block, heq, hkey⟩
  obtain ⟨parts, hchildren, hgrows, key, block, heq, hkey⟩ := hparts
  obtain ⟨first, rest, rfl, hfirst, hrest⟩ := List.map_eq_cons_iff.mp heq
  obtain ⟨second, rfl, -⟩ := List.map_eq_singleton_iff.mp hrest
  refine ⟨first.id, second.id, by simp [hchildren], ?_⟩
  rw [(hgrows first (by simp)).kind?_eq, hfirst, Shape.kind?, hkey]

theorem Holds.decorators {n : NodeId} (hn : n ∈ root.ids)
    (hsymbol : t.symbol? n = some .decorators) :
    2 ≤ (t.children n).length ∧ ∀ m ∈ t.children n, t.symbol? m = some .decorator := by
  obtain ⟨parts, hchildren, hgrows, -, htwo, hall⟩ := h.forms hformed hn hsymbol
  rw [hchildren]
  refine ⟨by simpa using htwo, fun m hm => ?_⟩
  obtain ⟨b, hb, rfl⟩ := List.mem_map.mp hm
  rw [(hgrows b hb).symbol?_eq]
  exact hall _ (List.mem_map_of_mem hb)

theorem Holds.other {n : NodeId} (hn : n ∈ root.ids) {name : String}
    (hsymbol : t.symbol? n = some (.other name)) {m : NodeId} (hm : m ∈ t.descendants n) :
    (∃ name, t.symbol? m = some (.other name)) ∨
      ∃ kind, t.kind? m = some kind ∧ kind.isOrdinary = true := by
  obtain ⟨c, x, rfl, hfill, hplace⟩ := h.exists_place hn
  have hgrows : t.Grows c.parent x := hplace.run_grows x (by simp)
  rw [hgrows.descendants_eq (by simpa [Branch.idsOfAll] using hplace.run_nodup)] at hm
  have hrun := (@Context.formed_of_fill c [x] (by simpa [hfill] using hformed)).1
  have hx : x.shape.Formed := hrun x (by simp)
  refine Branch.loose_of_mem_ids ?_ hgrows hm
  cases x with
  | leaf id token => simp [Branch.id, hgrows.symbol?_leaf] at hsymbol
  | node id symbol parts =>
    obtain rfl : symbol = .other name := by simpa [Branch.id, hgrows.symbol?_node] using hsymbol
    rw [Branch.shape, Branch.shapesOfAll_eq_map]
    exact .node (Branch.formed_node hx).1

section Marks

variable (hroot : root.shape.symbol? = some .fileInput)
include hroot

/-- The tokens that are not ordinary, with the nodes they hang below. -/
theorem Holds.exists_parent {n : NodeId} (hn : n ∈ root.ids) {token : Leaf}
    (htoken : t.leaf? n = some token) (hkind : token.kind.isOrdinary = false) :
    ∃ (p : NodeId) (symbol : Symbol) (before after : List Branch), t.parent? n = some p ∧
      t.symbol? p = some symbol ∧
      t.children p = before.map Branch.id ++ n :: after.map Branch.id ∧
      (∀ b ∈ after, t.Grows (some p) b) ∧
      token.kind.Place symbol (before.map Branch.shape) (after.map Branch.shape) ∧
      (symbol = .fileInput → p = root.id) := by
  obtain ⟨f, above, hfill, hplace, hstands⟩ :=
    (h.leaf_place hformed hroot hn htoken).2.resolve_left (by simp [hkind])
  refine ⟨f.id, f.symbol, f.before, f.after, hplace.parent? (List.mem_singleton_self _),
    hplace.symbol?_parent, by simpa [Branch.id] using hplace.children_parent,
    fun b hb => hplace.surrounds.2.1 b (by simp [hb]), hstands, fun hfile => ?_⟩
  cases above with
  | nil =>
    rw [Context.fill, Context.fill, List.singleton_inj] at hfill
    rw [← hfill, Branch.id]
  | cons g above =>
    rw [Context.fill] at hfill
    have hframe := (@Context.formed_of_fill (g :: above)
      [.node f.id f.symbol (f.before ++ [.leaf n token] ++ f.after)]
      (by rw [hfill]; exact List.forall_mem_singleton.mpr hformed)).2 g rfl
    have hmem := hframe.file_not_mem
      (Branch.shape (.node f.id f.symbol (f.before ++ [.leaf n token] ++ f.after))) (by simp)
    exact absurd (congrArg some hfile) hmem

theorem Holds.newline {n : NodeId} (hn : n ∈ root.ids) (hkind : t.kind? n = some .newline) :
    ∃ p before after, t.parent? n = some p ∧ t.children p = before ++ n :: after ∧
      ((t.symbol? p = some .simpleStmt ∨ t.symbol? p = some .decorator) ∧ after = [] ∨
        t.symbol? p = some .suite ∧ before = [] ∨
        t.symbol? p = some .matchStmt ∧ after.head?.bind t.kind? = some .indent) := by
  obtain ⟨token, htoken, hnewline⟩ := Option.map_eq_some_iff.mp hkind
  obtain ⟨p, symbol, before, after, hparent, hsymbol, hchildren, hafter, hstands, -⟩ :=
    h.exists_parent hformed hroot hn htoken (by rw [hnewline]; rfl)
  refine ⟨p, _, _, hparent, hchildren, ?_⟩
  rw [hnewline] at hstands
  generalize hfront : before.map Branch.shape = front at hstands
  generalize hback : after.map Branch.shape = back at hstands
  cases hstands with
  | lineEnd line =>
    rw [List.map_eq_nil_iff] at hback
    exact .inl ⟨by simpa [hsymbol] using line, by rw [hback, List.map_nil]⟩
  | suiteStart =>
    rw [List.map_eq_nil_iff] at hfront
    exact .inr (.inl ⟨hsymbol, by rw [hfront, List.map_nil]⟩)
  | matchBreak indented =>
    refine .inr (.inr ⟨hsymbol, ?_⟩)
    cases after with
    | nil => simp [← hback] at indented
    | cons b rest => simpa [← hback, (hafter b (by simp)).kind?_eq] using indented
  | mark kinds block => simp at kinds

theorem Holds.mark {n : NodeId} (hn : n ∈ root.ids) {token : Leaf}
    (htoken : t.leaf? n = some token) (hkind : token.kind = .indent ∨ token.kind = .dedent) :
    token.trivia = "" ∧ token.value = "" ∧ ∃ p, t.parent? n = some p ∧
      (t.symbol? p = some .suite ∨ t.symbol? p = some .matchStmt) := by
  have hordinary : token.kind.isOrdinary = false := by
    rcases hkind with hkind | hkind <;> (rw [hkind]; rfl)
  obtain ⟨p, symbol, before, after, hparent, hsymbol, -, -, hstands, -⟩ :=
    h.exists_parent hformed hroot hn htoken hordinary
  have hbare : token.trivia = "" ∧ token.value = "" := by
    cases (h.leaf_place hformed hroot hn htoken).1 with
    | leaf fresh bare => exact bare hkind
  have hblock : symbol = .suite ∨ symbol = .matchStmt := by
    generalize token.kind = kind at hkind hstands
    generalize before.map Branch.shape = front at hstands
    generalize after.map Branch.shape = back at hstands
    cases hstands with
    | mark kinds block => exact block
    | _ => simp at hkind
  exact ⟨hbare.1, hbare.2, p, hparent, by simpa [hsymbol] using hblock⟩

theorem Holds.async {n : NodeId} (hn : n ∈ root.ids) (hkind : t.kind? n = some .async) :
    ∃ p, t.parent? n = some p ∧ (t.children p).head? = some n ∧
      (t.symbol? p = some .asyncStmt ∨ t.symbol? p = some .asyncFuncdef) := by
  obtain ⟨token, htoken, hasync⟩ := Option.map_eq_some_iff.mp hkind
  obtain ⟨p, symbol, before, after, hparent, hsymbol, hchildren, -, hstands, -⟩ :=
    h.exists_parent hformed hroot hn htoken (by rw [hasync]; rfl)
  rw [hasync] at hstands
  generalize hfront : before.map Branch.shape = front at hstands
  cases hstands with
  | lead wrapper =>
    rw [List.map_eq_nil_iff] at hfront
    exact ⟨p, hparent, by rw [hchildren, hfront]; rfl, by simpa [hsymbol] using wrapper⟩
  | mark kinds block => simp at kinds

theorem Holds.endMarker : ∃ init last, t.children root.id = init ++ [last] ∧
    ∀ n ∈ root.ids, t.kind? n = some .endMarker ↔ n = last := by
  have htop := (h.grows root (by simp)).symbol?_eq.trans hroot
  obtain ⟨parts, hchildren, hgrows, -, init, ending, heq, hending, -⟩ :=
    h.forms hformed root.id_mem_ids htop
  obtain ⟨front, last, hids, hlast⟩ := exists_last hgrows heq
  refine ⟨front, last, hchildren.trans hids, fun n hn => ⟨fun hkind => ?_, ?_⟩⟩
  · obtain ⟨token, htoken, hend⟩ := Option.map_eq_some_iff.mp hkind
    obtain ⟨p, symbol, before, after, -, -, hsiblings, -, hstands, hfile⟩ :=
      h.exists_parent hformed hroot hn htoken (by rw [hend]; rfl)
    rw [hend] at hstands
    generalize hback : after.map Branch.shape = back at hstands
    cases hstands with
    | fileEnd =>
      rw [List.map_eq_nil_iff] at hback
      rw [hfile rfl, hchildren, hids, hback] at hsiblings
      exact (List.singleton_inj.mp (List.append_inj_right' hsiblings rfl)).symm
    | mark kinds block => simp at kinds
  · rintro rfl
    rw [hlast, hending]

theorem Holds.statementForm (hid : root.id = rootId) : t.StatementForm := by
  have hids : t.descendants rootId = root.ids :=
    hid ▸ (h.grows root (by simp)).descendants_eq (by simpa [Branch.idsOfAll] using h.nodup)
  constructor <;> rw [hids]
  · exact hid ▸ h.endMarker hformed hroot
  · exact fun n hn => h.line hformed hn
  · exact fun n hn => h.suite hformed hn
  · exact fun n hn => h.newline hformed hroot hn
  · exact fun n hn token htoken => h.mark hformed hroot hn htoken
  · exact fun n hn => h.async hformed hroot hn
  · exact fun n hn => h.wrapper hformed hn
  · exact fun n hn => h.decorators hformed hn
  · exact fun n hn name hsymbol m hm => h.other hformed hn hsymbol hm
  · intro n hn hkind
    obtain ⟨token, htoken, hverbatim⟩ := Option.map_eq_some_iff.mp hkind
    cases (h.leaf_place hformed hroot hn htoken).1 with
    | leaf fresh bare => exact fresh hverbatim

end Marks

end Places

end Tree

end LineScope
