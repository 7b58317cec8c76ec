import LineScope.Parse.Lowering
import LineScope.Proofs.Collapse.Grammar
import LineScope.Proofs.Text.Boundary
import LineScope.Proofs.Tree.Numbering

/-!
# Lowering keeps the text

Every routine of the lowering moves one cursor forward and puts what it passes into leaves.
`Parse.Cuts` says so of a run of tokens, and `Parse.NodeCuts` of all that can be made of one node.
-/
namespace LineScope

namespace Leaf

def chars (tokens : List Leaf) : List Char :=
  tokens.flatMap fun leaf => leaf.trivia.toList ++ leaf.value.toList

theorem toList_render {tokens : List Leaf} (h : ∀ leaf ∈ tokens, leaf.kind ≠ .verbatim) :
    (render tokens).toList = chars tokens := by
  induction tokens with
  | nil => rfl
  | cons leaf rest ih =>
    have hbreak : leaf.breakAfter rest = "" := by
      cases rest with
      | nil => rfl
      | cons next rest => simp [breakAfter, h leaf (by simp)]
    rw [render, hbreak, chars, List.flatMap_cons, ← chars, ← ih fun leaf hleaf => h leaf (by simp [hleaf])]
    simp

end Leaf

namespace Parse

open Text

/-- Tokens cut from a source between two cursors: they hold the text between them. -/
def Cuts (source : Source) (c : Cursor) (tokens : List Leaf) (c' : Cursor) : Prop :=
  IsBoundary source.chars c.offset →
    IsBoundary source.chars c'.offset ∧ c.offset ≤ c'.offset ∧
      Leaf.chars tokens = slice source.chars c.offset c'.offset ∧
      ∀ leaf ∈ tokens, leaf.kind ≠ .verbatim

section Cuts

variable {source : Source} {c c' c'' : Cursor} {tokens more : List Leaf}

theorem Cuts.nil : Cuts source c [] c := by
  intro hc
  exact ⟨hc, Nat.le_refl _, (slice_self hc).symm, by simp⟩

theorem Cuts.append (h : Cuts source c tokens c') (hmore : Cuts source c' more c'') :
    Cuts source c (tokens ++ more) c'' := by
  intro hc
  obtain ⟨hc', hle, hchars, hplain⟩ := h hc
  obtain ⟨hc'', hle', hchars', hplain'⟩ := hmore hc'
  refine ⟨hc'', hle.trans hle', ?_, ?_⟩
  · rw [Leaf.chars, List.flatMap_append, ← Leaf.chars, ← Leaf.chars, hchars, hchars',
      slice_append hc hc' hc'' hle hle']
  · intro leaf hleaf
    exact (List.mem_append.mp hleaf).elim (hplain leaf) (hplain' leaf)

theorem Cuts.cons {leaf : Leaf} (h : Cuts source c [leaf] c') (hmore : Cuts source c' more c'') :
    Cuts source c (leaf :: more) c'' := h.append hmore

theorem cuts_marker {kind : TokenKind} (hkind : kind ≠ .verbatim) (line : Nat) :
    Cuts source c [marker kind line] c := by
  intro hc
  refine ⟨hc, Nat.le_refl _, ?_, by simpa [marker] using hkind⟩
  rw [slice_self hc]
  rfl

end Cuts

section Cursor

variable {source : Source} (hsource : source.length = byteLength source.chars)
include hsource

/-- Clamping an offset between the cursor and the end gives a boundary. -/
theorem isBoundary_clamp {m n : Nat} (hm : IsBoundary source.chars m)
    (hn : n ≤ source.length → IsBoundary source.chars n) :
    IsBoundary source.chars (min (max n m) source.length) := by
  have hend : IsBoundary source.chars source.length := hsource ▸ isBoundary_length source.chars
  by_cases hle : n ≤ source.length
  · rcases Nat.le_total n m with hnm | hnm
    · rw [Nat.max_eq_right hnm, Nat.min_eq_left (hsource ▸ hm.le_length)]
      exact hm
    · rw [Nat.max_eq_left hnm, Nat.min_eq_left hle]
      exact hn hle
  · rw [Nat.min_eq_right (by omega)]
    exact hend

theorem take_cuts {kind : TokenKind} (hkind : kind ≠ .verbatim) {start stop : Nat}
    (hstart : start ≤ source.length → IsBoundary source.chars start)
    (hstop : stop ≤ source.length → IsBoundary source.chars stop) (c : Cursor) :
    Cuts source c [(c.take source kind start stop).1] (c.take source kind start stop).2 := by
  intro hc
  have hle : c.offset ≤ source.length := hsource ▸ hc.le_length
  have hfrom := isBoundary_clamp hsource hc hstart
  have hto := isBoundary_clamp hsource hfrom hstop
  refine ⟨hto, ?_, ?_, by simpa [Cursor.take] using hkind⟩
  · simp only [Cursor.take]
    omega
  · simp only [Leaf.chars, Cursor.take, List.flatMap_cons, List.flatMap_nil, List.append_nil,
      String.toList_ofList]
    exact slice_append hc hfrom hto (by omega) (by omega)

/-- The current line breaks between characters, also if it breaks with two of them. -/
theorem isBoundary_lineBreak {c : Cursor} (hc : IsBoundary source.chars c.offset) {feed : Nat}
    (hfeed : c.lineBreak? source = some feed) :
    IsBoundary source.chars feed ∧ IsBoundary source.chars (feed + 1) ∧
      (c.offset < feed → terminatorLength source.chars (feed - 1) = 2 →
        IsBoundary source.chars (feed - 1)) := by
  obtain ⟨before, after, hchars, hoffset⟩ := hc
  have hrest : slice source.chars c.offset source.length = after := by
    have h := slice_between before after []
    rw [List.append_nil, ← hchars, hoffset] at h
    rw [hsource, hchars, byteLength_append, ← hchars, hoffset, h]
  rw [Cursor.lineBreak?, hrest] at hfeed
  obtain ⟨k, hk, rfl⟩ := Option.map_eq_some_iff.mp hfeed
  obtain ⟨mid, rest, rfl, rfl, -⟩ := lineFeed?_eq_some hk
  refine ⟨⟨before ++ mid, '\n' :: rest, by simp [hchars], by rw [byteLength_append, hoffset]⟩,
    ⟨before ++ mid ++ ['\n'], rest, by simp [hchars], ?_⟩, fun hlt hterminator => ?_⟩
  · rw [byteLength_append, byteLength_append, hoffset]
    rfl
  · rcases List.eq_nil_or_concat mid with rfl | ⟨init, ch, rfl⟩
    · simp [byteLength] at hlt
    · have heq : source.chars = (before ++ init) ++ ch :: ('\n' :: rest) := by simp [hchars]
      have hfeed' : c.offset + byteLength (init.concat ch) =
          byteLength (before ++ init) + ch.utf8Size := by
        rw [List.concat_eq_append, byteLength_append, byteLength_append, hoffset]
        simp [byteLength, Nat.add_assoc]
      rw [heq, hfeed'] at hterminator ⊢
      exact isBoundary_of_terminatorLength hterminator

theorem takeNewline_cuts (c : Cursor) :
    Cuts source c [(c.takeNewline source).1] (c.takeNewline source).2 := by
  intro hc
  have hend : IsBoundary source.chars source.length := hsource ▸ isBoundary_length source.chars
  rw [Cursor.takeNewline]
  split
  · exact take_cuts hsource (by decide) (fun _ => hend) (fun _ => hend) c hc
  · next feed hfeed =>
    obtain ⟨hat, hafter, hbefore⟩ := isBoundary_lineBreak hsource hc hfeed
    split
    · next htwo =>
      exact take_cuts hsource (by decide) (fun _ => hbefore htwo.1 htwo.2) (fun _ => hafter) c hc
    · exact take_cuts hsource (by decide) (fun _ => hat) (fun _ => hafter) c hc

end Cursor

namespace Construct

def stop : Construct → Nat
  | .node _ _ stop _ _ => stop

def parts : Construct → List Construct
  | .node _ _ _ _ parts => parts

mutual

def offsets : Construct → List Nat
  | .node _ start stop _ parts => start :: stop :: offsetsOfAll parts

def offsetsOfAll : List Construct → List Nat
  | [] => []
  | p :: rest => p.offsets ++ offsetsOfAll rest

end

theorem mem_offsetsOfAll {parts : List Construct} {p : Construct} (hp : p ∈ parts) :
    p.offsets ⊆ offsetsOfAll parts := by
  induction parts with
  | nil => simp at hp
  | cons q rest ih =>
    intro n hn
    rw [offsetsOfAll, List.mem_append]
    rcases List.mem_cons.mp hp with rfl | hp
    · exact .inl hn
    · exact .inr (ih hp hn)

/-- Induction on nesting: what holds of all the parts of a node holds of the node. -/
@[elab_as_elim, induction_eliminator]
theorem nesting {motive : Construct → Prop}
    (node : ∀ kind start stop childless parts, (∀ p ∈ parts, motive p) →
      motive (.node kind start stop childless parts)) (p : Construct) : motive p := by
  refine @Construct.rec motive (fun parts => ∀ p ∈ parts, motive p) node ?_ ?_ p
  · intro p hp
    simp at hp
  · intro p rest hp hrest q hq
    rcases List.mem_cons.mp hq with rfl | hq
    · exact hp
    · exact hrest q hq

end Construct

mutual

def Report.marks : Report → List Mark
  | .node mark children => mark :: marksOfAll children

def Report.marksOfAll : List Report → List Mark
  | [] => []
  | report :: rest => report.marks ++ marksOfAll rest

end

theorem Report.exists_mark_construct (report : Report) :
    ∀ n ∈ report.construct.offsets, ∃ mark ∈ report.marks, n ∈ [mark.start, mark.stop] := by
  refine @Report.rec
    (fun report => ∀ n ∈ report.construct.offsets,
      ∃ mark ∈ report.marks, n ∈ [mark.start, mark.stop])
    (fun reports => ∀ n ∈ Construct.offsetsOfAll (constructs reports),
      ∃ mark ∈ marksOfAll reports, n ∈ [mark.start, mark.stop]) ?_ ?_ ?_ report
  · intro mark children ih n hn
    simp only [construct, Construct.offsets, List.mem_cons] at hn
    rcases hn with rfl | rfl | hn
    · exact ⟨mark, by simp [marks], by simp⟩
    · exact ⟨mark, by simp [marks], by simp⟩
    · obtain ⟨mark', hmark, hoffset⟩ := ih n hn
      exact ⟨mark', by simp [marks, hmark], hoffset⟩
  · intro n hn
    simp [constructs, Construct.offsetsOfAll] at hn
  · intro report rest ih ihrest n hn
    rw [constructs] at hn
    split at hn
    · obtain ⟨mark, hmark, hoffset⟩ := ihrest n hn
      exact ⟨mark, by simp [marksOfAll, hmark], hoffset⟩
    · rcases List.mem_append.mp hn with hn | hn
      · obtain ⟨mark, hmark, hoffset⟩ := ih n hn
        exact ⟨mark, by simp [marksOfAll, hmark], hoffset⟩
      · obtain ⟨mark, hmark, hoffset⟩ := ihrest n hn
        exact ⟨mark, by simp [marksOfAll, hmark], hoffset⟩

theorem Report.exists_mark (report : Report) {p : Construct} (hp : p ∈ report.parts) {n : Nat}
    (hn : n ∈ p.offsets) : ∃ mark ∈ report.marks, n ∈ [mark.start, mark.stop] := by
  refine report.exists_mark_construct n ?_
  cases report with
  | node mark children =>
    rw [construct, Construct.offsets]
    exact List.mem_cons_of_mem _ (List.mem_cons_of_mem _ (Construct.mem_offsetsOfAll hp hn))

structure NodeCuts (source : Source) (p : Construct) : Prop where
  start : p.start ≤ source.length → IsBoundary source.chars p.start
  stop : p.stop ≤ source.length → IsBoundary source.chars p.stop
  expression : ∀ c, Cuts source c (expression source c p).1.tokens (expression source c p).2
  compound : ∀ c symbol wrapper, Cuts source c (compound source c symbol wrapper p).1.tokens
    (compound source c symbol wrapper p).2
  expressions : ∀ c, Cuts source c (Shape.tokensOfAll (expressions source c p.parts).1)
    (expressions source c p.parts).2
  statements : ∀ c, Cuts source c (Shape.tokensOfAll (statements source c .idle p.parts).1)
    (statements source c .idle p.parts).2
  clauses : ∀ c, Cuts source c (Shape.tokensOfAll (clauses source c p.parts).1)
    (clauses source c p.parts).2
  matchCases : ∀ c, Cuts source c (Shape.tokensOfAll (matchCases source c p.parts).1)
    (matchCases source c p.parts).2

section Lists

variable {source : Source} {parts : List Construct} (h : ∀ p ∈ parts, NodeCuts source p)
include h

theorem expressions_cuts (c : Cursor) :
    Cuts source c (Shape.tokensOfAll (expressions source c parts).1)
      (expressions source c parts).2 := by
  induction parts generalizing c with
  | nil =>
    rw [expressions]
    exact .nil
  | cons p rest ih =>
    rw [expressions]
    exact ((h p (by simp)).expression c).append (ih (fun q hq => h q (by simp [hq])) _)

theorem matchCases_cuts (c : Cursor) :
    Cuts source c (Shape.tokensOfAll (matchCases source c parts).1)
      (matchCases source c parts).2 := by
  induction parts generalizing c with
  | nil =>
    rw [matchCases]
    exact .nil
  | cons p rest ih =>
    have hp := h p (by simp)
    have hrest := ih fun q hq => h q (by simp [hq])
    cases p with
    | node kind start stop childless below =>
      rw [matchCases]
      simp only
      by_cases hkind : kind = "case_clause"
      · simp only [if_pos hkind]
        exact (hp.clauses c).append (hrest _)
      · simp only [if_neg hkind]
        exact (hp.expression c).append (hrest _)

theorem definitions_cuts (c : Cursor) :
    Cuts source c (Shape.tokensOfAll (definitions source c parts).1)
      (definitions source c parts).2 := by
  induction parts generalizing c with
  | nil =>
    rw [definitions]
    exact .nil
  | cons p rest ih =>
    have hp := h p (by simp)
    have hrest := ih fun q hq => h q (by simp [hq])
    rw [definitions]
    split
    · exact hrest c
    · simp only
      cases compoundSymbol? p.kind with
      | some symbol => exact (hp.compound c symbol .asyncFuncdef).append (hrest _)
      | none => exact (hp.expression c).append (hrest _)

variable (hsource : source.length = byteLength source.chars)
include hsource

theorem decorators_cuts (c : Cursor) :
    Cuts source c (Shape.tokensOfAll (decorators source c parts).1)
      (decorators source c parts).2 := by
  induction parts generalizing c with
  | nil =>
    rw [decorators]
    exact .nil
  | cons p rest ih =>
    have hp := h p (by simp)
    have hrest := ih fun q hq => h q (by simp [hq])
    cases p with
    | node kind start stop childless below =>
      rw [decorators]
      split
      · simp only [Shape.tokensOfAll, Shape.tokens, Shape.tokensOfAll_append, List.append_assoc]
        exact (hp.expressions c).append ((takeNewline_cuts hsource _).append (hrest _))
      · exact hrest c

theorem matchParts_cuts (c : Cursor) :
    Cuts source c (Shape.tokensOfAll (matchParts source c parts).1)
      (matchParts source c parts).2 := by
  induction parts generalizing c with
  | nil =>
    rw [matchParts]
    exact .nil
  | cons p rest ih =>
    have hp := h p (by simp)
    have hrest := ih fun q hq => h q (by simp [hq])
    cases p with
    | node kind start stop childless below =>
      rw [matchParts]
      split
      · simp only [Shape.tokensOfAll, Shape.tokens, Shape.tokensOfAll_append, List.cons_append]
        exact (takeNewline_cuts hsource c).append <| (cuts_marker (by decide) _).append <|
          (hp.matchCases _).append <| (cuts_marker (by decide) _).append (hrest _)
      · exact (hp.expression c).append (hrest _)

theorem clauses_cuts (c : Cursor) :
    Cuts source c (Shape.tokensOfAll (clauses source c parts).1) (clauses source c parts).2 := by
  induction parts generalizing c with
  | nil =>
    rw [clauses]
    exact .nil
  | cons p rest ih =>
    have hp := h p (by simp)
    have hrest := ih fun q hq => h q (by simp [hq])
    cases p with
    | node kind start stop childless below =>
      rw [clauses]
      split
      · simp only [Shape.tokensOfAll_append]
        exact (hp.clauses c).append (hrest _)
      · split
        · split
          · exact hrest c
          · simp only
            split
            · simp only [Shape.tokensOfAll_append]
              exact (hp.statements c).append (hrest _)
            · simp only [Shape.tokensOfAll, Shape.tokens, Shape.tokensOfAll_append,
                List.cons_append, List.append_assoc, List.nil_append]
              exact (takeNewline_cuts hsource c).append <| (cuts_marker (by decide) _).append <|
                (hp.statements _).append <| (cuts_marker (by decide) _).append (hrest _)
        · exact (hp.expression c).append (hrest _)

omit h in
theorem close_cuts (c : Cursor) (pending : Pending) :
    ∃ tokens, Shape.tokensOfAll (pending.close source c).1 =
        Shape.tokensOfAll pending.parts ++ tokens ∧
      Cuts source c tokens (pending.close source c).2 := by
  rw [Pending.close]
  split
  · next hempty =>
    rw [List.isEmpty_iff.mp hempty]
    exact ⟨[], rfl, .nil⟩
  · refine ⟨_, ?_, takeNewline_cuts hsource c⟩
    simp [Shape.tokensOfAll, Shape.tokens]

theorem statements_cuts (c : Cursor) (pending : Pending) :
    ∃ tokens, Shape.tokensOfAll (statements source c pending parts).1 =
        Shape.tokensOfAll pending.parts ++ tokens ∧
      Cuts source c tokens (statements source c pending parts).2 := by
  induction parts generalizing c pending with
  | nil =>
    rw [statements]
    exact close_cuts hsource c pending
  | cons p rest ih =>
    have hp := h p (by simp)
    have hrest := ih fun q hq => h q (by simp [hq])
    rw [statements]
    split
    · obtain ⟨tokens, htokens, hcuts⟩ := hrest (expression source c p).2
        ⟨pending.parts ++ [(expression source c p).1], !pending.separated⟩
      refine ⟨_, ?_, (hp.expression c).append hcuts⟩
      simp only [htokens, Shape.tokensOfAll_append, Shape.tokensOfAll, List.append_nil,
        List.append_assoc]
    · obtain ⟨closing, hclosing, hcuts⟩ := close_cuts hsource c pending
      simp only
      split
      · next symbol _ =>
        obtain ⟨tokens, htokens, hmore⟩ := hrest
          (compound source (pending.close source c).2 symbol .asyncStmt p).2 .idle
        refine ⟨_, ?_, hcuts.append ((hp.compound _ symbol .asyncStmt).append hmore)⟩
        have hidle : Shape.tokensOfAll Pending.idle.parts = [] := rfl
        simp only [Shape.tokensOfAll_append, Shape.tokensOfAll, htokens, hclosing, hidle,
          List.nil_append, List.append_assoc]
      · obtain ⟨tokens, htokens, hmore⟩ := hrest
          (expression source (pending.close source c).2 p).2
          ⟨[(expression source (pending.close source c).2 p).1], false⟩
        refine ⟨_, ?_, hcuts.append ((hp.expression _).append hmore)⟩
        simp [htokens, hclosing, Shape.tokensOfAll]

end Lists

theorem tokensOfAll_stacked (shapes : List Shape) :
    Shape.tokensOfAll (stacked shapes) = Shape.tokensOfAll shapes := by
  unfold stacked
  split <;> simp [Shape.tokensOfAll, Shape.tokens]

theorem isOrdinary_tokenKind (kind : String) (text : List Char) :
    (tokenKind kind text).isOrdinary = true := by
  unfold tokenKind
  split
  · rfl
  · split
    · rfl
    · split
      · rfl
      · split
        · rfl
        · split
          · rfl
          · split <;> rfl

theorem tokenKind_ne_verbatim (kind : String) (text : List Char) :
    tokenKind kind text ≠ .verbatim := by
  intro h
  have hordinary := isOrdinary_tokenKind kind text
  rw [h] at hordinary
  cases hordinary

section Node

variable {source : Source} {kind : String} {start stop : Nat} {childless : Bool}
  {parts : List Construct} (h : ∀ p ∈ parts, NodeCuts source p)
  (hsource : source.length = byteLength source.chars)
include h hsource

theorem expression_cuts (hstart : start ≤ source.length → IsBoundary source.chars start)
    (hstop : stop ≤ source.length → IsBoundary source.chars stop) (c : Cursor) :
    Cuts source c (expression source c (.node kind start stop childless parts)).1.tokens
      (expression source c (.node kind start stop childless parts)).2 := by
  rw [expression]
  split
  · exact take_cuts hsource (tokenKind_ne_verbatim _ _) hstart hstop c
  · exact expressions_cuts h c

theorem compound_cuts (c : Cursor) (symbol wrapper : Symbol) :
    Cuts source c
      (compound source c symbol wrapper (.node kind start stop childless parts)).1.tokens
      (compound source c symbol wrapper (.node kind start stop childless parts)).2 := by
  unfold compound
  split
  · simp only [Shape.tokens, Shape.tokensOfAll_append, tokensOfAll_stacked]
    exact (decorators_cuts h hsource c).append (definitions_cuts h _)
  · exact matchParts_cuts h hsource c
  · split
    · exact .nil
    · next first start stop childless below rest =>
      split
      · have hfirst := h (.node first start stop childless below) (by simp)
        simp only [Shape.tokens, Shape.tokensOfAll, List.append_nil]
        exact (take_cuts hsource (by decide) hfirst.start hfirst.stop c).append
          (clauses_cuts (fun p hp => h p (by simp [hp])) hsource _)
      · exact clauses_cuts h hsource c

end Node

/-- Every node whose offsets lie between characters, with all those below it, is cut from the
source. -/
theorem nodeCuts {source : Source} (hsource : source.length = byteLength source.chars)
    (p : Construct)
    (hp : ∀ n ∈ p.offsets, n ≤ source.length → IsBoundary source.chars n) :
    NodeCuts source p := by
  induction p with
  | node kind start stop childless parts ih =>
    rw [Construct.offsets, List.forall_mem_cons, List.forall_mem_cons] at hp
    obtain ⟨hstart, hstop, hoffsets⟩ := hp
    have hparts : ∀ p ∈ parts, NodeCuts source p := fun p hp =>
      ih p hp fun n hn => hoffsets n (Construct.mem_offsetsOfAll hp hn)
    refine ⟨hstart, hstop, ?_, ?_, ?_, ?_, ?_, ?_⟩
    · exact expression_cuts hparts hsource hstart hstop
    · exact compound_cuts hparts hsource
    · exact expressions_cuts hparts
    · intro c
      obtain ⟨tokens, htokens, hcuts⟩ := statements_cuts hparts hsource c .idle
      rw [Pending.idle, Shape.tokensOfAll, List.nil_append] at htokens
      exact htokens ▸ hcuts
    · exact clauses_cuts hparts hsource
    · exact matchCases_cuts hparts

theorem Report.boundary_parts {text : String} (report : Report)
    (hreport : ∀ mark ∈ report.marks, ∀ n ∈ [mark.start, mark.stop],
      n ≤ byteLength text.toList → IsBoundary text.toList n) :
    ∀ p ∈ report.parts, ∀ n ∈ p.offsets,
      n ≤ byteLength text.toList → IsBoundary text.toList n := by
  intro p hp n hn hle
  obtain ⟨mark, hmark, hoffset⟩ := report.exists_mark hp hn
  exact hreport mark hmark n hoffset hle

/-- The tokens of a lowered text hold the text. -/
theorem lower_chars (text : String) (report : Report)
    (hreport : ∀ p ∈ report.parts, ∀ n ∈ p.offsets,
      n ≤ byteLength text.toList → IsBoundary text.toList n) :
    Leaf.chars (Shape.tokensOfAll (lower text report)) = text.toList ∧
      ∀ leaf ∈ Shape.tokensOfAll (lower text report), leaf.kind ≠ .verbatim := by
  have hsource : (Source.ofText text).length = byteLength (Source.ofText text).chars := rfl
  have hparts : ∀ p ∈ report.parts, NodeCuts (Source.ofText text) p := fun p hp =>
    nodeCuts hsource p (hreport p hp)
  obtain ⟨tokens, htokens, hcuts⟩ := statements_cuts hparts hsource .start .idle
  rw [Pending.idle, Shape.tokensOfAll, List.nil_append, ← Pending.idle] at htokens
  rw [← htokens] at hcuts
  have hend : IsBoundary (Source.ofText text).chars (Source.ofText text).length :=
    isBoundary_length _
  have hall := hcuts.append (@take_cuts _ hsource .endMarker (by decide) _ _ (fun _ => hend)
    (fun _ => hend) (statements (Source.ofText text) .start .idle report.parts).2)
  obtain ⟨-, -, hchars, hplain⟩ := hall (isBoundary_zero _)
  have hlower : Shape.tokensOfAll (lower text report) =
      Shape.tokensOfAll (statements (Source.ofText text) .start .idle report.parts).1 ++
        [((statements (Source.ofText text) .start .idle report.parts).2.take (Source.ofText text)
          .endMarker (Source.ofText text).length (Source.ofText text).length).1] := by
    simp [lower, Shape.tokensOfAll, Shape.tokens]
  have hstop (c : Cursor) : (c.take (Source.ofText text) .endMarker (Source.ofText text).length
      (Source.ofText text).length).2.offset = byteLength text.toList := by
    simp only [Cursor.take, hsource]
    simp [Source.ofText]
  rw [hlower]
  refine ⟨?_, hplain⟩
  rw [hchars, hstop]
  exact slice_all text.toList

theorem source_of_boundaries (text : String) (report : Report)
    (hreport : ∀ p ∈ report.parts, ∀ n ∈ p.offsets,
      n ≤ byteLength text.toList → IsBoundary text.toList n) :
    (Tree.ofShapes .fileInput (lower text report)).source = text := by
  obtain ⟨hchars, hplain⟩ := lower_chars text report hreport
  rw [Tree.source_ofShapes]
  refine String.toList_inj.mp ?_
  rw [Leaf.toList_render hplain, hchars]

end Parse

/-- Lowering a text and rendering the tree gives the text back, whatever the parse tree is, as long as
its offsets do not lie inside characters. -/
theorem Parse.source_lower (text : String) (report : Parse.Report)
    (hreport : ∀ mark ∈ report.marks, ∀ n ∈ [mark.start, mark.stop],
      n ≤ Text.byteLength text.toList → Text.IsBoundary text.toList n) :
    (Tree.ofShapes .fileInput (Parse.lower text report)).source = text :=
  Parse.source_of_boundaries text report (report.boundary_parts hreport)

/-- A report with an offset past the end and two nodes that overlap. -/
theorem Parse.source_lower_overlapping :
    (Tree.ofShapes .fileInput (Parse.lower "é = 1\n" (.node ⟨"module", 0, 7, false, false, false, false⟩
      [.node ⟨"assignment", 0, 6, false, false, false, false⟩
        [.node ⟨"identifier", 0, 2, false, false, false, false⟩ [],
          .node ⟨"=", 2, 4, false, false, false, false⟩ [],
          .node ⟨"integer", 0, 40, false, false, false, false⟩ []]]))).source = "é = 1\n" :=
  Parse.source_lower _ _ (by decide +kernel)

end LineScope
