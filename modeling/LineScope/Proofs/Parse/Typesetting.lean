import LineScope.Proofs.Collapse.PassChoice
import LineScope.Proofs.Parse.Programs

/-!
# Newlines of lowered files

In a program every newline comes right after a word. In a lowered file a newline without a line break
stands at the end of the text, so there is one at most, and the file is typeset as a text is.
-/
namespace LineScope

namespace Leaf

/-- A newline comes right after a word, and a word right after an indent. -/
def Abuts (x y : Leaf) : Prop :=
  (y.kind = .newline → x.kind.isLayout = false) ∧ (x.kind = .indent → y.kind.isLayout = false)

/-- Tokens from a word on, each of which may come right after the one in front of it. -/
structure Abutting (tokens : List Leaf) : Prop where
  chain : tokens.IsChain Abuts
  first : TokenFirst tokens
  last : ∀ x ∈ tokens.getLast?, x.kind ≠ .indent

variable {a b body : List Leaf} {x y newline indent dedent : Leaf}

theorem Abutting.nil : Abutting [] := ⟨.nil, by simp [TokenFirst], by simp⟩

theorem Abutting.append (h : Abutting a) (h' : Abutting b) : Abutting (a ++ b) := by
  refine ⟨List.isChain_append.mpr ⟨h.chain, h'.chain, fun x hx y hy => ⟨fun hkind => ?_,
    fun hkind => absurd hkind (h.last x hx)⟩⟩, h.first.append h'.first, ?_⟩
  · have hfirst := h'.first y hy
    rw [hkind] at hfirst
    cases hfirst
  · intro x hx
    rw [List.getLast?_append] at hx
    cases hb : b.getLast? with
    | none =>
      rw [hb, Option.none_or] at hx
      exact h.last x hx
    | some z =>
      rw [hb, Option.some_or] at hx
      exact h'.last x (hb.trans hx)

theorem abutting_words (h : ∀ x ∈ a, x.kind.isLayout = false) : Abutting a := by
  refine ⟨?_, fun x hx => h x (List.mem_of_head? hx), fun x hx hkind => ?_⟩
  · rw [List.isChain_iff_forall_rel_of_append_cons_cons]
    rintro x y before after rfl
    exact ⟨fun _ => h x (by simp), fun _ => h y (by simp)⟩
  · have hword := h x (List.mem_of_getLast? hx)
    rw [hkind] at hword
    cases hword

theorem abutting_line (hne : a ≠ []) (h : ∀ x ∈ a, x.kind.isLayout = false)
    (hnewline : newline.kind = .newline) : Abutting (a ++ [newline]) := by
  have hwords := abutting_words h
  refine ⟨List.isChain_append.mpr ⟨hwords.chain, List.isChain_singleton _, fun x hx y hy => ?_⟩,
    hwords.first.append_right hne _, by simp [hnewline]⟩
  obtain rfl : newline = y := by simpa using hy
  exact ⟨fun _ => h x (List.mem_of_getLast? hx), fun hkind => absurd hkind (hwords.last x hx)⟩

theorem abutting_suite (h : Abutting (a ++ [newline])) (hnewline : newline.kind = .newline)
    (hindent : indent.kind = .indent) (hne : body ≠ []) (hbody : Abutting body)
    (hdedent : dedent.kind = .dedent) :
    Abutting (a ++ Collapse.suiteTokens newline indent body dedent) := by
  have hsplit : a ++ Collapse.suiteTokens newline indent body dedent =
      (a ++ [newline]) ++ (indent :: (body ++ [dedent])) := by
    simp [Collapse.suiteTokens]
  have hrest : (indent :: (body ++ [dedent])).IsChain Abuts := by
    obtain ⟨x, more, rfl⟩ := List.exists_cons_of_ne_nil hne
    rw [List.cons_append, List.isChain_cons_cons, ← List.cons_append]
    have hx : x.kind.isLayout = false := hbody.first x rfl
    refine ⟨⟨fun hkind => ?_, fun _ => hx⟩, List.isChain_append.mpr
      ⟨hbody.chain, List.isChain_singleton _, fun x hx y hy => ?_⟩⟩
    · rw [hkind] at hx
      cases hx
    · obtain rfl : dedent = y := by simpa using hy
      exact ⟨by simp [hdedent], fun hkind => absurd hkind (hbody.last x hx)⟩
  rw [hsplit]
  refine ⟨List.isChain_append.mpr ⟨h.chain, hrest, fun x hx y hy => ?_⟩,
    h.first.append_right (by simp) _, fun x hx => ?_⟩
  · obtain rfl : newline = x := by simpa using hx
    obtain rfl : indent = y := by simpa using hy
    exact ⟨by simp [hindent], by simp [hnewline]⟩
  · rw [← List.cons_append, ← List.append_assoc, List.getLast?_concat, Option.mem_some_iff] at hx
    simp [← hx, hdedent]

theorem Abutting.word_before_newline {before after : List Leaf} (h : Abutting (before ++ x :: after))
    (hx : x.kind = .newline) : ∃ init w, before = init ++ [w] ∧ w.kind.isLayout = false := by
  rcases List.eq_nil_or_concat before with rfl | ⟨init, w, rfl⟩
  · have hfirst := h.first x rfl
    rw [hx] at hfirst
    cases hfirst
  · rw [List.concat_eq_append] at h ⊢
    refine ⟨init, w, rfl, ?_⟩
    rw [List.append_assoc, List.singleton_append] at h
    exact (List.isChain_iff_forall_rel_of_append_cons_cons.mp h.chain rfl).1 hx

theorem Abutting.word_behind_indent {before after : List Leaf} (h : Abutting (before ++ x :: after))
    (hx : x.kind = .indent) : ∃ w more, after = w :: more ∧ w.kind.isLayout = false := by
  cases after with
  | nil => exact absurd hx (h.last x (by simp))
  | cons w more =>
    exact ⟨w, more, rfl, (List.isChain_iff_forall_rel_of_append_cons_cons.mp h.chain rfl).2 hx⟩

end Leaf

namespace Grammar

open Text Leaf Collapse

theorem IsHeader.words {header : List Shape} (h : IsHeader header) :
    ∀ x ∈ Shape.tokensOfAll header, x.kind.isLayout = false := fun x hx =>
  TokenKind.isLayout_eq_false (h.isOrdinary x hx)

theorem abutting_header {header : List Shape} {newline : Leaf} (h : IsHeader header)
    (hnewline : newline.kind = .newline) : Abutting (Shape.tokensOfAll header ++ [newline]) :=
  abutting_line (header_tokens_ne_nil h) h.words hnewline

theorem abutting_lines {lines : List Line} (h : ∀ line ∈ lines, line.Wf) :
    Abutting (Shape.tokensOfAll (lines.map Line.shape)) := by
  induction lines with
  | nil => exact .nil
  | cons line rest ih =>
    rw [List.forall_mem_cons] at h
    refine .append ?_ (ih h.2)
    cases line with
    | simple parts newline =>
      rw [tokens_simple]
      exact abutting_header h.1.1 h.1.2
    | verbatim leaf =>
      exact abutting_words (List.forall_mem_singleton.mpr (by rw [show leaf.kind = _ from h.1]; rfl))

theorem abutting_decorators {ds : List Decorator} (h : ∀ d ∈ ds, d.Wf) :
    Abutting (Shape.tokensOfAll (decoratorsShape ds)) := by
  rw [tokens_decorators]
  induction ds with
  | nil => exact .nil
  | cons d rest ih =>
    rw [List.forall_mem_cons] at h
    refine .append ?_ (ih h.2)
    rw [tokens_decorator]
    exact abutting_header h.1.1 h.1.2

theorem Statement.tokens_ne_nil {s : Statement} (h : s.Wf) : s.tokens ≠ [] := by
  cases s with
  | line line =>
    cases line with
    | simple parts newline => simp [Statement.tokens, Statement.shape, tokens_simple]
    | verbatim leaf => simp [Statement.tokens, Statement.shape, Line.shape, Shape.tokens]
  | compound decorators lead symbol clauses =>
    rw [tokens_compound]
    exact List.append_ne_nil_of_right_ne_nil _ (tokens_clauses_ne_nil h.2.2.2)
  | definition decorators leaf => simp [tokens_definition]
  | choice header newline indent cases dedent => simp [tokens_choice, suiteTokens]

theorem Block.tokens_ne_nil {code : Block} (h : code.Wf) (hne : code ≠ .nil) : code.tokens ≠ [] := by
  cases code with
  | nil => exact absurd rfl hne
  | cons statement rest => exact List.append_ne_nil_of_left_ne_nil (Statement.tokens_ne_nil h.1) _

mutual

theorem abutting_statement (s : Statement) (h : s.Wf) (hbodied : s.Bodied) : Abutting s.tokens := by
  cases s with
  | line line =>
    have hline := abutting_lines (List.forall_mem_singleton.mpr (show line.Wf from h))
    rwa [List.map_singleton, Shape.tokensOfAll, Shape.tokensOfAll, List.append_nil] at hline
  | compound decorators lead symbol clauses =>
    obtain ⟨hdecorators, hlead, -, hclauses⟩ := h
    rw [tokens_compound]
    refine ((abutting_decorators hdecorators).append (abutting_words ?_)).append
      (abutting_clauses clauses hclauses hbodied)
    cases lead with
    | none => simp
    | some lead => simp [(hlead lead rfl).2, TokenKind.isLayout]
  | definition decorators leaf =>
    rw [tokens_definition]
    exact (abutting_decorators h.2.1).append
      (abutting_words (List.forall_mem_singleton.mpr (by rw [h.2.2]; rfl)))
  | choice header newline indent cases dedent =>
    obtain ⟨hheader, hnewline, hindent, hcases, hdedent⟩ := h
    rw [tokens_choice]
    exact abutting_suite (abutting_header hheader hnewline) hnewline hindent
      (Block.tokens_ne_nil hcases hbodied.1) (abutting_block cases hcases hbodied.2) hdedent

theorem abutting_block (code : Block) (h : code.Wf) (hbodied : code.Bodied) :
    Abutting code.tokens := by
  cases code with
  | nil => exact .nil
  | cons statement rest =>
    exact (abutting_statement statement h.1 hbodied.1).append (abutting_block rest h.2 hbodied.2)

theorem abutting_clauses (clauses : Clauses) (h : clauses.Wf) (hbodied : clauses.Bodied) :
    Abutting clauses.tokens := by
  cases clauses with
  | inline header body =>
    rw [tokens_inline]
    exact (abutting_words h.1.words).append (abutting_lines h.2.2)
  | suite header newline indent body dedent =>
    obtain ⟨hheader, hnewline, hindent, hbody, hdedent⟩ := h
    rw [tokens_suite]
    exact abutting_suite (abutting_header hheader hnewline) hnewline hindent
      (Block.tokens_ne_nil hbody hbodied.1) (abutting_block body hbody hbodied.2) hdedent
  | inlineThen header body rest =>
    rw [tokens_inlineThen]
    exact ((abutting_words h.1.1.words).append (abutting_lines h.1.2.2)).append
      (abutting_clauses rest h.2 hbodied)
  | suiteThen header newline indent body dedent rest =>
    obtain ⟨⟨hheader, hnewline, hindent, hbody, hdedent⟩, hrest⟩ := h
    rw [tokens_suiteThen, ← List.append_assoc]
    exact (abutting_suite (abutting_header hheader hnewline) hnewline hindent
      (Block.tokens_ne_nil hbody hbodied.1.1) (abutting_block body hbody hbodied.1.2) hdedent).append
      (abutting_clauses rest hrest hbodied.2)

end

section Headers

variable {P : List Shape → Prop} {Q : Leaf → Prop}

mutual

theorem headers_statement (hP : ∀ header, IsHeader header → (∀ x ∈ Shape.tokensOfAll header, Q x) →
      P header) (s : Statement) (h : s.Wf) (hQ : ∀ x ∈ s.tokens, Q x) :
    s.Headers P := by
  cases s with
  | line line => trivial
  | compound decorators lead symbol clauses =>
    rw [tokens_compound, List.forall_mem_append] at hQ
    exact headers_clauses hP clauses h.2.2.2 hQ.2
  | definition decorators leaf => trivial
  | choice header newline indent cases dedent =>
    rw [tokens_choice, List.forall_mem_append] at hQ
    exact ⟨hP header h.1 hQ.1, headers_block hP cases h.2.2.2.1 fun x hx =>
      hQ.2 x ((sublist_suiteTokens ..).subset hx)⟩

theorem headers_block (hP : ∀ header, IsHeader header → (∀ x ∈ Shape.tokensOfAll header, Q x) →
      P header) (code : Block) (h : code.Wf) (hQ : ∀ x ∈ code.tokens, Q x) :
    code.Headers P := by
  cases code with
  | nil => trivial
  | cons statement rest =>
    have hsplit : (Block.cons statement rest).tokens = statement.tokens ++ rest.tokens := rfl
    rw [hsplit, List.forall_mem_append] at hQ
    exact ⟨headers_statement hP statement h.1 hQ.1, headers_block hP rest h.2 hQ.2⟩

theorem headers_clauses (hP : ∀ header, IsHeader header → (∀ x ∈ Shape.tokensOfAll header, Q x) →
      P header) (clauses : Clauses) (h : clauses.Wf)
    (hQ : ∀ x ∈ clauses.tokens, Q x) : clauses.Headers P := by
  cases clauses with
  | inline header body =>
    rw [tokens_inline, List.forall_mem_append] at hQ
    exact hP header h.1 hQ.1
  | suite header newline indent body dedent =>
    rw [tokens_suite, List.forall_mem_append] at hQ
    exact ⟨hP header h.1 hQ.1, headers_block hP body h.2.2.2.1 fun x hx =>
      hQ.2 x ((sublist_suiteTokens ..).subset hx)⟩
  | inlineThen header body rest =>
    rw [tokens_inlineThen, List.forall_mem_append, List.forall_mem_append] at hQ
    exact ⟨hP header h.1.1 hQ.1.1, headers_clauses hP rest h.2 hQ.2⟩
  | suiteThen header newline indent body dedent rest =>
    rw [tokens_suiteThen, List.forall_mem_append, List.forall_mem_append] at hQ
    exact ⟨⟨hP header h.1.1 hQ.1, headers_block hP body h.1.2.2.2.1 fun x hx =>
      hQ.2.1 x ((sublist_suiteTokens ..).subset hx)⟩, headers_clauses hP rest h.2 hQ.2.2⟩

end

end Headers

/-- A header whose last word does not end a line does not end one either. -/
theorem worded_of_words {header : List Shape} (h : IsHeader header)
    (hwords : ∀ x ∈ Shape.tokensOfAll header, x.value ≠ "" ∧ ¬Breaks x.value) : Worded header := by
  obtain ⟨init, x, hsplit⟩ :=
    (List.eq_nil_or_concat (Shape.tokensOfAll header)).resolve_left (header_tokens_ne_nil h)
  rw [List.concat_eq_append] at hsplit
  rw [hsplit] at hwords
  obtain ⟨hne, hbreaks⟩ := hwords x (by simp)
  obtain ⟨s, hs⟩ := exists_render_append init [x]
  have hrender : render (init ++ [x]) = (s ++ x.trivia) ++ x.value := by
    rw [hs, render, Leaf.breakAfter, render]
    simp [String.append_assoc]
  rw [Worded, hsplit, hrender]
  refine ⟨fun hnil => hne ?_, not_breaks_append _ hne hbreaks⟩
  exact (String.append_eq_empty_iff.mp hnil).2

end Grammar

theorem Leaf.exists_position {x : Leaf} {leaves : List Leaf} (h : x ∈ leaves) (offset : Nat) :
    ∃ n, (n, x) ∈ positions offset leaves := by
  obtain ⟨before, after, rfl⟩ := List.append_of_mem h
  rw [positions_append, positions]
  exact ⟨_, List.mem_append_right _ List.mem_cons_self⟩

namespace Parse

open Text Construct Grammar Leaf

/-- The text of a token is not empty, and does not end in a line break. -/
def AreWords (text : String) (tokens : List Construct) : Prop :=
  ∀ t ∈ tokens, slice text.toList t.start t.stop ≠ [] ∧
    (slice text.toList t.start t.stop).getLast? ≠ some '\n'

section Reaches

variable {text : String} {c c' : Cursor} {leaves : List Leaf} {tokens : List Construct} {next : Nat}

/-- Leaves that are not layout are words, and do not end in a line break. -/
theorem Reaches.word (h : Reaches text c leaves c' tokens next) (hwords : AreWords text tokens)
    {x : Leaf} (hx : x ∈ leaves) (hkind : x.kind.isLayout = false) :
    x.value ≠ "" ∧ ¬Text.Breaks x.value := by
  obtain ⟨n, hn⟩ := exists_position hx c.offset
  have hmem : (n, x) ∈ (positions c.offset leaves).filter fun entry => !entry.2.kind.isLayout :=
    List.mem_filter.mpr ⟨hn, by simpa using hkind⟩
  obtain ⟨hlength, hpairs⟩ := List.forall₂_iff_get.mp h.pairs
  obtain ⟨i, hi⟩ := List.mem_iff_get.mp hmem
  have hleaf := hpairs i i.2 (hlength ▸ i.2)
  rw [hi] at hleaf
  generalize ht' : tokens.get ⟨i, _⟩ = t at hleaf
  have ht : t ∈ tokens := ht' ▸ List.get_mem _ _
  obtain ⟨hne, hlast⟩ := hwords t ht
  rw [hleaf.value, Text.breaks_iff, String.toList_ofList]
  exact ⟨by simpa using hne, hlast⟩

theorem Reaches.endsLine {before after : List Leaf} {x : Leaf}
    (h : Reaches text c (before ++ x :: after) c' tokens next) (hkind : x.kind = .newline) :
    EndsLine text (c.offset + byteLength (chars before) + byteLength x.trivia.toList, x) := by
  refine h.newlines _ ?_ hkind
  rw [positions_append, positions]
  exact List.mem_append_right _ List.mem_cons_self

/-- Behind a newline without a line break there is no text. -/
theorem Reaches.chars_eq_nil {before after : List Leaf} {x : Leaf}
    (h : Reaches text c (before ++ x :: after) c' tokens (byteLength text.toList))
    (hx : x.IsEmptyNewline) : chars after = [] := by
  have hend : c.offset + byteLength (chars before) + byteLength x.trivia.toList =
      byteLength text.toList := by
    rcases (h.endsLine hx.1).value with hvalue | hvalue | ⟨-, hvalue⟩
    · exact absurd (hvalue.symm.trans hx.2) (by decide)
    · exact absurd (hvalue.symm.trans hx.2) (by decide)
    · exact hvalue
  have hoffset := h.offset
  have hle := h.ready.2
  rw [chars, List.flatMap_append, List.flatMap_cons, byteLength_append, byteLength_append,
    byteLength_append, ← chars, ← chars] at hoffset
  exact eq_nil_of_byteLength_eq_zero (by omega)

end Reaches

section Typeset

variable {text : String} {c : Cursor} {tokens : List Construct} {code : Block} {endMarker : Leaf}

/-- Behind a newline without a line break there are no words. -/
theorem layout_behind_newline {before after : List Leaf} {x : Leaf}
    (h : Reaches text .start (before ++ x :: after) c tokens (byteLength text.toList))
    (hwords : AreWords text tokens) (hx : x.IsEmptyNewline) :
    ∀ y ∈ after, (y.trivia = "" ∧ y.value = "") ∧ y.kind.isLayout = true := by
  have hchars := h.chars_eq_nil hx
  rw [chars, List.flatMap_eq_nil_iff] at hchars
  intro y hy
  have hblank : y.trivia = "" ∧ y.value = "" := by simpa using hchars y hy
  refine ⟨hblank, ?_⟩
  by_contra hkind
  exact (h.word hwords (by simp [hy]) (by simpa using hkind)).1 hblank.2

theorem pairwise_of_split {α : Type} {R : α → α → Prop} {l : List α}
    (h : ∀ before x after, l = before ++ x :: after → ∀ y ∈ after, R x y) : l.Pairwise R := by
  induction l with
  | nil => exact .nil
  | cons a rest ih =>
    refine .cons (h [] a rest rfl) (ih fun before x after heq => h (a :: before) x after ?_)
    rw [heq, List.cons_append]

theorem countP_le_one {α : Type} {p : α → Bool} {l : List α}
    (h : l.Pairwise fun x y => p x = true → p y = false) : l.countP p ≤ 1 := by
  induction h with
  | nil => simp
  | @cons a rest hnone _ ih =>
    by_cases ha : p a = true
    · have hrest : rest.countP p = 0 := List.countP_eq_zero.mpr fun y hy => by simp [hnone y hy ha]
      rw [List.countP_cons_of_pos ha, hrest]
    · rwa [List.countP_cons_of_neg ha]

variable (h : Reaches text .start (code.tokens ++ [endMarker]) c tokens (byteLength text.toList))
  (hwords : AreWords text tokens) (habutting : Abutting code.tokens)
include h hwords habutting

/-- A newline with a word behind it has a line break, and so has one in front of a suite. -/
theorem value_ne_of_indent : code.tokens.IsChain fun x y =>
    x.kind = .newline → y.kind = .indent → x.value ≠ "" := by
  rw [List.isChain_iff_forall_rel_of_append_cons_cons]
  intro x y before after hsplit hx hy hvalue
  rw [hsplit, List.append_assoc, List.cons_append] at h
  rw [hsplit, ← List.singleton_append, ← List.append_assoc] at habutting
  obtain ⟨w, more, rfl, hword⟩ := habutting.word_behind_indent hy
  have hlayout := (layout_behind_newline h hwords ⟨hx, hvalue⟩ w (by simp)).2
  rw [hword] at hlayout
  cases hlayout

theorem empties_le_one : empties code.tokens ≤ 1 := by
  refine countP_le_one (pairwise_of_split fun before x after hsplit y hy => ?_)
  simp only [decide_eq_true_eq, decide_eq_false_iff_not]
  intro hx hempty
  obtain ⟨mid, rest, rfl⟩ := List.append_of_mem hy
  rw [hsplit, List.append_assoc, List.cons_append] at h
  rw [hsplit, ← List.cons_append, ← List.append_assoc] at habutting
  obtain ⟨init, w, heq, hword⟩ := habutting.word_before_newline hempty.1
  have hlast : (x :: mid).getLast? = some w := by
    have hgetLast := congrArg List.getLast? heq
    rwa [List.getLast?_append_of_ne_nil _ (List.cons_ne_nil x mid), List.getLast?_concat] at hgetLast
  rcases List.mem_cons.mp (List.mem_of_getLast? hlast) with rfl | hmem
  · rw [hx.1] at hword
    cases hword
  · have hlayout := (layout_behind_newline h hwords hx w (by simp [hmem])).2
    rw [hword] at hlayout
    cases hlayout

/-- A text that ends with a newline without a line break has none in front of it either. -/
theorem not_breaks_of_empties (hfresh : ∀ x ∈ code.tokens ++ [endMarker], x.kind ≠ .verbatim)
    (hpos : 0 < empties code.tokens) : ¬Text.Breaks (render (code.tokens ++ [endMarker])) := by
  obtain ⟨x, hx, hempty⟩ := List.countP_pos_iff.mp hpos
  rw [decide_eq_true_eq] at hempty
  obtain ⟨before, after, hsplit⟩ := List.append_of_mem hx
  rw [Text.breaks_iff, toList_render hfresh]
  rw [hsplit] at habutting
  rw [hsplit, List.append_assoc, List.cons_append] at h ⊢
  obtain ⟨init, w, rfl, hword⟩ := habutting.word_before_newline hempty.1
  have hends := (h.endsLine hempty.1).trivia
  have hvalue := (h.word hwords (by simp) hword).2
  have hne := (h.word hwords (by simp) hword).1
  have hchars : chars (init ++ [w] ++ x :: (after ++ [endMarker])) =
      chars init ++ w.trivia.toList ++ w.value.toList ++ x.trivia.toList := by
    calc chars (init ++ [w] ++ x :: (after ++ [endMarker]))
        = chars init ++ w.trivia.toList ++ w.value.toList ++ x.trivia.toList ++ x.value.toList ++
            chars (after ++ [endMarker]) := by simp [chars]
      _ = _ := by simp [h.chars_eq_nil hempty, hempty.2]
  rw [hchars]
  intro hlast
  by_cases htrivia : x.trivia.toList = []
  · rw [htrivia, List.append_nil, List.getLast?_append_of_ne_nil _ (by simpa using hne)] at hlast
    exact hvalue ((Text.breaks_iff _).mpr hlast)
  · rw [List.getLast?_append_of_ne_nil _ htrivia] at hlast
    exact hends (List.mem_of_getLast? hlast)

end Typeset

/-- A lowered file is a program typeset as its text is. -/
theorem lower_typeset (text : String) (report : Report) (h : LaidOut text report.parts)
    (hcomplete : Complete text report.parts) :
    ∃ code endMarker, (Tree.ofShapes .fileInput (lower text report)).IsProgram code endMarker ∧
      code.Typeset endMarker := by
  obtain ⟨code, endMarker, hlower, hprogram, hbodied, hdecorated⟩ :=
    lower_isProgram text report h hcomplete
  obtain ⟨c, hreaches⟩ := lower_reaches text report h
  have hformed := (lower_formed text report).tokens
  have htokens : Shape.tokensOfAll (lower text report) = code.tokens ++ [endMarker] := by
    rw [hlower, Shape.tokensOfAll_append]
    rfl
  rw [Shape.tokens] at hformed
  rw [htokens] at hreaches hformed
  have hwords : AreWords text (tokensOfAll report.parts) := fun t ht =>
    ⟨(h.word t ht).1, (h.word t ht).2.2⟩
  have hmem {x : Leaf} (hx : x ∈ code.tokens) : x ∈ code.tokens ++ [endMarker] :=
    List.mem_append_left _ hx
  have habutting := abutting_block code hprogram.wf hbodied
  refine ⟨code, endMarker, hprogram, hdecorated, ?_, ?_,
    value_ne_of_indent hreaches hwords habutting, ?_, empties_le_one hreaches hwords habutting,
    not_breaks_of_empties hreaches hwords habutting fun x hx => (hformed x hx).1⟩
  · have hword : ∀ x ∈ code.tokens,
        x.kind.isLayout = false → x.value ≠ "" ∧ ¬Text.Breaks x.value := fun x hx =>
      hreaches.word hwords (hmem hx)
    refine headers_block (fun header hheader hall => ?_) code hprogram.wf hword
    exact worded_of_words hheader fun x hx => hall x hx (hheader.words x hx)
  · intro x hx
    refine ⟨fun hkind => ?_, (hformed x (hmem hx)).2⟩
    obtain ⟨before, after, hsplit⟩ := List.append_of_mem (hmem hx)
    rw [hsplit] at hreaches
    rcases (hreaches.endsLine hkind).value with hvalue | hvalue | ⟨hvalue, -⟩ <;>
      simp [show x.value = _ from hvalue]
  · refine pairwise_of_split fun before x after hsplit y hy hx => ?_
    rw [hsplit] at hreaches
    exact (layout_behind_newline hreaches hwords hx y hy).1

/-- With and without the statement pass, a parsed file collapses to the same text up to carriage
returns in front of line feeds. -/
theorem collapseUnchanged_lower_same_text (text : String) (report : Report)
    (h : LaidOut text report.parts) (hcomplete : Complete text report.parts)
    (ranges : List LineRange) :
    let t := Tree.ofShapes .fileInput (lower text report)
    ∃ u v whole lines, t.collapseUnchanged ranges true = ⟨u, .ok whole⟩ ∧
      t.collapseUnchanged ranges false = ⟨v, .ok lines⟩ ∧
      (∃ k ≤ 1, Softened (text ++ feeds k) u.source ∧ Softened (text ++ feeds k) v.source) ∧
      ((∀ a b, text ++ "\n" ≠ a ++ "\r\n" ++ b) → u.source = v.source) := by
  intro t
  obtain ⟨code, endMarker, hprogram, htypeset⟩ := lower_typeset text report h hcomplete
  have hsource : t.source = text := source_of_boundaries text report fun p hp n hn _ =>
    h.boundary n (mem_offsetsOfAll hp hn)
  have hsame := Tree.collapseUnchanged_same_text hprogram htypeset ranges
  rwa [hsource] at hsame

/-- A block, a decorated definition and a statement without a line break at the end. -/
theorem collapseUnchanged_lower_same_text_open :
    let text := "if x:\n  y; z\n@a\ndef f(): pass\nw"
    let report : Report :=
      .node ⟨"module", 0, 31, false, false, false, false⟩
        [.node ⟨"if_statement", 0, 12, false, false, false, false⟩
            [.node ⟨"if", 0, 2, false, false, false, false⟩ [],
              .node ⟨"identifier", 3, 4, false, false, false, false⟩ [],
              .node ⟨":", 4, 5, false, false, false, false⟩ [],
              .node ⟨"block", 8, 12, false, false, false, false⟩
                [.node ⟨"expression_statement", 8, 9, false, false, false, false⟩
                    [.node ⟨"identifier", 8, 9, false, false, false, false⟩ []],
                  .node ⟨";", 9, 10, false, false, false, false⟩ [],
                  .node ⟨"expression_statement", 11, 12, false, false, false, false⟩
                    [.node ⟨"identifier", 11, 12, false, false, false, false⟩ []]]],
          .node ⟨"decorated_definition", 13, 29, false, false, false, false⟩
            [.node ⟨"decorator", 13, 15, false, false, false, false⟩
                [.node ⟨"@", 13, 14, false, false, false, false⟩ [],
                  .node ⟨"identifier", 14, 15, false, false, false, false⟩ []],
              .node ⟨"function_definition", 16, 29, false, false, false, false⟩
                [.node ⟨"def", 16, 19, false, false, false, false⟩ [],
                  .node ⟨"identifier", 20, 21, false, false, false, false⟩ [],
                  .node ⟨"parameters", 21, 23, false, false, false, false⟩
                    [.node ⟨"(", 21, 22, false, false, false, false⟩ [],
                      .node ⟨")", 22, 23, false, false, false, false⟩ []],
                  .node ⟨":", 23, 24, false, false, false, false⟩ [],
                  .node ⟨"block", 25, 29, false, false, false, false⟩
                    [.node ⟨"pass_statement", 25, 29, false, false, false, false⟩
                        [.node ⟨"pass", 25, 29, false, false, false, false⟩ []]]]],
          .node ⟨"expression_statement", 30, 31, false, false, false, false⟩
            [.node ⟨"identifier", 30, 31, false, false, false, false⟩ []]]
    let t := Tree.ofShapes .fileInput (lower text report)
    LaidOut text report.parts ∧ Complete text report.parts ∧
    ∃ u v whole lines, t.collapseUnchanged [⟨1, 1⟩] true = ⟨u, .ok whole⟩ ∧
      t.collapseUnchanged [⟨1, 1⟩] false = ⟨v, .ok lines⟩ ∧ u.source = v.source := by
  intro text report t
  have h : LaidOut text report.parts := by constructor <;> decide +kernel
  have hcomplete : Complete text report.parts := by constructor <;> decide +kernel
  obtain ⟨u, v, whole, lines, hu, hv, -, hsame⟩ :=
    collapseUnchanged_lower_same_text text report h hcomplete [⟨1, 1⟩]
  refine ⟨h, hcomplete, u, v, whole, lines, hu, hv, hsame fun a b heq => ?_⟩
  have hmem : '\r' ∈ (text ++ "\n").toList := by
    rw [heq]
    simp
  exact absurd hmem (by decide +kernel)

end Parse

end LineScope
