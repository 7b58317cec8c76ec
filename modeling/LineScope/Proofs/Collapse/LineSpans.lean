import LineScope.Proofs.Collapse.Alignment
import LineScope.Proofs.Collapse.PassChoice

/-!
# Verbatim leaves stand for the lines of what they replaced

The text of a run, cut where the run ended, counts the lines from its first token to its last. So a
verbatim leaf ends where the run ended, and what comes next is as far from it as it was from the run.
-/
namespace LineScope

open Text

namespace Collapse

open Leaf Grammar

/-- Tokens of which some runs have given way to verbatim leaves with the same lines. -/
inductive StandsFor : List Leaf → List Leaf → Prop
  | nil : StandsFor [] []
  | kept (x : Leaf) {a b : List Leaf} (rest : StandsFor a b) : StandsFor (x :: a) (x :: b)
  | folded {run a b : List Leaf} {leaf : Leaf} (kind : leaf.kind = .verbatim)
      (span : Leaf.span? run = some ⟨leaf.line, leaf.endLine⟩) (rest : StandsFor a b) :
      StandsFor (run ++ a) (leaf :: b)

theorem span?_eq_some_iff {tokens : List Leaf} {first last : Nat} :
    Leaf.span? tokens = some ⟨first, last⟩ ↔
      tokens.head?.map Leaf.line = some first ∧ tokens.getLast?.map Leaf.endLine = some last := by
  cases tokens with
  | nil => simp [Leaf.span?]
  | cons x rest => simp [Leaf.span?, List.getLast?_cons]

namespace StandsFor

variable {a b c d : List Leaf}

theorem refl (a : List Leaf) : StandsFor a a := by
  induction a with
  | nil => exact .nil
  | cons x a ih => exact .kept x ih

theorem append (h : StandsFor a b) (h' : StandsFor c d) : StandsFor (a ++ c) (b ++ d) := by
  induction h with
  | nil => exact h'
  | kept x rest ih => exact .kept x ih
  | folded kind span rest ih =>
    rw [List.append_assoc]
    exact .folded kind span ih

/-- What two lists of tokens stand for lies side by side. -/
theorem split (h : StandsFor a (b ++ c)) :
    ∃ left right, a = left ++ right ∧ StandsFor left b ∧ StandsFor right c := by
  induction b generalizing a with
  | nil => exact ⟨[], a, rfl, .nil, h⟩
  | cons y b ih =>
    cases h with
    | kept _ rest =>
      obtain ⟨left, right, rfl, hleft, hright⟩ := ih rest
      exact ⟨y :: left, right, rfl, .kept y hleft, hright⟩
    | @folded run _ _ _ kind span rest =>
      obtain ⟨left, right, rfl, hleft, hright⟩ := ih rest
      exact ⟨run ++ left, right, (List.append_assoc run left right).symm, .folded kind span hleft,
        hright⟩

theorem head_line (h : StandsFor a b) : a.head?.map Leaf.line = b.head?.map Leaf.line := by
  cases h with
  | nil => rfl
  | kept x rest => rfl
  | @folded run a b leaf kind span rest =>
    cases run with
    | nil => simp [Leaf.span?] at span
    | cons x more => exact (span?_eq_some_iff.mp span).1

theorem last_endLine (h : StandsFor a b) :
    a.getLast?.map Leaf.endLine = b.getLast?.map Leaf.endLine := by
  induction h with
  | nil => rfl
  | @kept x a b rest ih =>
    rw [List.getLast?_cons, List.getLast?_cons, Option.map_some, Option.map_some]
    exact congrArg some (by rw [← Option.getD_map Leaf.endLine, ih, Option.getD_map])
  | @folded run a b leaf kind span rest ih =>
    rw [List.getLast?_append, Option.map_or, ih, (span?_eq_some_iff.mp span).2]
    cases hb : b.getLast? <;> simp [List.getLast?_cons, hb]

/-- Two rounds of folding are one. -/
theorem trans (h : StandsFor a b) (h' : StandsFor b c) : StandsFor a c := by
  induction h' generalizing a with
  | nil => exact h
  | kept x rest ih =>
    cases h with
    | kept _ rest' => exact .kept x (ih rest')
    | folded kind span rest' => exact .folded kind span (ih rest')
  | @folded run b c leaf kind span rest ih =>
    obtain ⟨left, right, rfl, hleft, hright⟩ := h.split
    refine .folded kind ?_ (ih hright)
    rw [span?_eq_some_iff, hleft.head_line, hleft.last_endLine]
    exact span?_eq_some_iff.mp span

theorem eq_of_fresh (h : StandsFor a b) (hb : ∀ x ∈ b, x.kind ≠ .verbatim) : a = b := by
  induction h with
  | nil => rfl
  | kept x rest ih =>
    rw [List.forall_mem_cons] at hb
    rw [ih hb.2]
  | folded kind span rest ih => exact absurd kind (hb _ List.mem_cons_self)

/-- The lines of a run are those of the verbatim leaf in its place. -/
theorem span_eq {run rest : List Leaf} {leaf : Leaf} (h : StandsFor (run ++ rest) (leaf :: rest))
    (hfresh : ∀ x ∈ run ++ rest, x.kind ≠ .verbatim) (hkind : leaf.kind = .verbatim) :
    Leaf.span? run = some ⟨leaf.line, leaf.endLine⟩ := by
  have hrest : ∀ x ∈ rest, x.kind ≠ .verbatim := fun x hx => hfresh x (List.mem_append_right _ hx)
  generalize hall : run ++ rest = all at h
  cases h with
  | kept _ h' => exact absurd hkind (hfresh leaf (hall ▸ List.mem_cons_self))
  | folded kind span h' =>
    rw [h'.eq_of_fresh hrest] at hall
    rwa [List.append_cancel_right hall]

end StandsFor

/-- The newlines of a text of which only the last may have no line break; then the text in front of it
does not end in one. -/
structure Ended (front : String) (tokens : List Leaf) : Prop where
  last : tokens.Pairwise fun x y => x.IsEmptyNewline → y.kind.isMark = true
  text : 0 < empties tokens → ¬Breaks (front ++ flow tokens)

theorem lineFeeds_stripTerminator {s : String} (h : Breaks s) :
    lineFeeds (stripTerminator s).toList + 1 = lineFeeds s.toList := by
  rcases stripTerminator_cases s with heq | heq | ⟨hnot, -⟩
  · conv_rhs => rw [heq, lineFeeds_append]
    rfl
  · conv_rhs => rw [heq, lineFeeds_append]
    rfl
  · exact absurd h hnot

section Runs

variable {p : Reading} {front : String} {run : List Leaf} {x : Leaf} {more a b : List Leaf}

theorem Ended.empties_le_one (h : Ended front a) : empties a ≤ 1 := by
  obtain ⟨hlast, -⟩ := h
  induction a with
  | nil => exact Nat.zero_le _
  | cons x rest ih =>
    rw [List.pairwise_cons] at hlast
    rw [empties_cons]
    by_cases hx : x.IsEmptyNewline
    · have hrest : empties rest = 0 := List.countP_eq_zero.mpr fun y hy hempty => by
        have hmark := hlast.1 y hy hx
        rw [(of_decide_eq_true hempty).1] at hmark
        cases hmark
      simp [hrest, hx]
    · simpa [hx] using ih hlast.2

theorem flow_marks (hregular : ∀ y ∈ a, y.Regular) (hmarks : ∀ y ∈ a, y.kind.isMark = true) :
    flow a = "" := by
  rw [← render_eq_flow, render_eq_empty (fun y hy => TokenKind.isMark_iff.mp (hmarks y hy)) hregular]
  intro y hy hkind
  have hmark := hmarks y (List.mem_of_getLast? hy)
  rw [hkind] at hmark
  cases hmark

theorem Ended.left (h : Ended front (a ++ b)) (hopens : Opens b) (hregular : ∀ y ∈ b, y.Regular) :
    Ended front a := by
  obtain ⟨hlast, htext⟩ := h
  rw [List.pairwise_append] at hlast
  refine ⟨hlast.1, fun hpos => ?_⟩
  obtain ⟨x, hx, hempty⟩ := List.countP_pos_iff.mp hpos
  have hmarks := flow_marks hregular fun y hy => hlast.2.2 x hx y hy (of_decide_eq_true hempty)
  rw [flow_append hopens, hmarks, String.append_empty] at htext
  refine htext ?_
  simp only [empties, List.countP_append] at hpos ⊢
  omega

theorem Ended.right (h : Ended front (a ++ b)) (hopens : Opens b) : Ended (front ++ flow a) b := by
  obtain ⟨hlast, htext⟩ := h
  refine ⟨(List.pairwise_append.mp hlast).2.1, fun hpos => ?_⟩
  rw [flow_append hopens, ← String.append_assoc] at htext
  refine htext ?_
  simp only [empties, List.countP_append] at hpos ⊢
  omega

/-- A newline and the marks of indentation behind it leave the line. -/
theorem Terminated.turn_after (h : Terminated run) : (p.after run).turn = .breaks := by
  obtain ⟨pre, newline, post, rfl, hkind, hpost, -⟩ := h
  have hmarks (q : Reading) (hq : q.turn = .breaks) : (q.after post).turn = .breaks := by
    clear * - hpost hq
    induction post generalizing q with
    | nil => exact hq
    | cons y post ih =>
      rw [List.forall_mem_cons] at hpost
      refine ih hpost.2 _ ?_
      simp [Reading.next_mark (TokenKind.isMark_iff.mpr hpost.1), hq]
  rw [Reading.after_append, Reading.after_cons]
  refine hmarks _ ?_
  simp [Reading.next_word (show newline.kind.isMark = false by rw [hkind]; rfl), hkind]

theorem Terminated.endLine_eq (h : Terminated run) (haligned : Aligned p run)
    (hregular : ∀ y ∈ run, y.Regular) :
    run.getLast?.map Leaf.endLine = some (p.after run).line := by
  obtain ⟨pre, last, rfl, hkind⟩ : ∃ pre last, run = pre ++ [last] ∧ last.kind ≠ .indent := by
    obtain ⟨pre, newline, post, rfl, hkind, -, hlast⟩ := h
    rcases List.eq_nil_or_concat post with rfl | ⟨post, last, rfl⟩
    · exact ⟨pre, newline, rfl, by simp [hkind]⟩
    · refine ⟨pre ++ newline :: post, last, by simp, ?_⟩
      simp [hlast last (by simp)]
  rw [List.getLast?_concat, Option.map_some, haligned.endLine_eq (hregular last (by simp)) hkind]

theorem word_of_tokenFirst (h : TokenFirst (x :: more)) :
    x.kind.isMark = false ∧ x.kind ≠ .newline := by
  have hlayout := h x rfl
  cases hk : x.kind <;> simp_all [TokenKind.isLayout, TokenKind.isMark]

/-- The text of a run behind the trivia in front of it reaches as far as the run. -/
theorem line_add_lineFeeds (h : Aligned p (x :: more)) (hstarts : TokenFirst (x :: more))
    (hregular : ∀ y ∈ x :: more, y.Regular)
    (hlast : ∀ y ∈ (x :: more).getLast?, y.kind ≠ .verbatim) :
    x.line + lineFeeds (render (x.bare :: more)).toList + empties (x :: more) =
      (p.after (x :: more)).reached := by
  have hline := (Reading.meets_word (word_of_tokenFirst hstarts).1).mp h.1
  rw [← h.reached_after hregular, render_eq_flow hlast, render_bare hlast, lineFeeds_append, hline]
  omega

/-- A verbatim leaf that ends where a run ended can take its place. -/
theorem standsFor_fold (h : Aligned p (x :: more)) (hstarts : TokenFirst (x :: more))
    (hlast : (x :: more).getLast?.map Leaf.endLine = some (p.after (x :: more)).line)
    (hend : x.line + lineFeeds (stripTerminator (render (x.bare :: more))).toList =
      (p.after (x :: more)).line) :
    Aligned p (fold (x :: more)) ∧
      p.after (fold (x :: more)) = ⟨(p.after (x :: more)).line, .owes⟩ ∧
      StandsFor (x :: more) (fold (x :: more)) := by
  obtain ⟨hmark, hkind⟩ := word_of_tokenFirst hstarts
  set leaf := verbatim x (render (x.bare :: more)) with hleaf
  have hendLine : leaf.endLine = (p.after (x :: more)).line := hend
  have hgap : p.gap leaf.kind = p.gap x.kind := by
    rw [Reading.gap_of_ne hkind, Reading.gap_of_ne (by simp [hleaf, verbatim])]
  refine ⟨⟨(Reading.meets_word rfl).mpr ?_, trivial⟩, ?_, ?_⟩
  · rw [hgap]
    exact (Reading.meets_word hmark).mp h.1
  · rw [← hendLine]
    rfl
  · have hspan : Leaf.span? (x :: more) = some ⟨leaf.line, leaf.endLine⟩ :=
      span?_eq_some_iff.mpr ⟨rfl, hendLine ▸ hlast⟩
    have hstands := @StandsFor.folded (x :: more) [] [] leaf rfl hspan .nil
    rwa [List.append_nil] at hstands

theorem standsFor_closed (h : Aligned p run) (hstarts : TokenFirst run) (hends : Terminated run)
    (hregular : ∀ y ∈ run, y.Regular) (hended : Ended front run) :
    Aligned p (fold run) ∧ (p.after run).Agrees (p.after (fold run)) ∧ StandsFor run (fold run) := by
  cases run with
  | nil => exact ⟨h, .refl _, .nil⟩
  | cons x more =>
    have hturn := @Terminated.turn_after p _ hends
    have hlines := line_add_lineFeeds h hstarts hregular hends.getLast?
    rw [Reading.reached, if_pos hturn] at hlines
    have hend : x.line + lineFeeds (stripTerminator (render (x.bare :: more))).toList =
        (p.after (x :: more)).line := by
      have hone := hended.empties_le_one
      by_cases hempty : 0 < empties (x :: more)
      · have hbreaks : ¬Breaks (render (x.bare :: more)) := fun hb => by
          have hflow := hended.text hempty
          rw [render_bare hends.getLast?] at hflow
          exact hflow (breaks_append _ (breaks_append _ hb))
        rw [stripTerminator_of_not_breaks hbreaks]
        omega
      · have hstrip := lineFeeds_stripTerminator ((hends.breaks hregular).resolve_right hempty)
        omega
    obtain ⟨haligned, hafter, hstands⟩ :=
      standsFor_fold h hstarts (hends.endLine_eq h hregular) hend
    refine ⟨haligned, ?_, hstands⟩
    rw [hafter]
    exact ⟨rfl, by rw [hturn]; simp⟩

/-- A run that goes on up to a newline on the line of its last token. -/
structure Stretch (run : List Leaf) : Prop where
  spoken : Spoken run
  starts : TokenFirst run
  last : ∀ x ∈ run.getLast?, x.kind.isOrdinary = true

theorem Stretch.after_eq (h : Stretch (x :: more)) :
    ∃ last, (x :: more).getLast? = some last ∧ p.after (x :: more) = ⟨last.endLine, .stays⟩ := by
  obtain ⟨pre, last, heq⟩ : ∃ pre last, x :: more = pre ++ [last] :=
    ⟨_, _, (List.dropLast_append_getLast (List.cons_ne_nil x more)).symm⟩
  have hkind := h.last last (by simp [heq])
  have hword : last.kind.isMark = false ∧ last.kind ≠ .newline ∧ last.kind ≠ .verbatim := by
    cases hk : last.kind <;> simp_all [TokenKind.isOrdinary, TokenKind.isMark]
  refine ⟨last, by simp [heq], ?_⟩
  rw [heq, Reading.after_append, Reading.after_cons, Reading.after_nil, Reading.next_word hword.1,
    if_neg hword.2.1, if_neg hword.2.2]

/-- Where a header is folded, the newline behind it stays where it is. -/
theorem standsFor_header {newline : Leaf} (h : Aligned p (run ++ [newline])) (hrun : Stretch run)
    (hkind : newline.kind = .newline) (hregular : ∀ y ∈ run, y.Regular)
    (hended : Ended front (run ++ [newline])) :
    Aligned p (fold run ++ [newline]) ∧
      (p.after (run ++ [newline])).Agrees (p.after (fold run ++ [newline])) ∧
      StandsFor (run ++ [newline]) (fold run ++ [newline]) := by
  cases run with
  | nil => exact ⟨h, .refl _, .refl _⟩
  | cons x more =>
    rw [aligned_append] at h
    obtain ⟨hrest, hnewline, -⟩ := h
    obtain ⟨last, hlast, hafter⟩ := @Stretch.after_eq p _ _ hrun
    have hnone : empties (x :: more) = 0 := List.countP_eq_zero.mpr fun y hy hempty => by
      have hmark := (List.pairwise_append.mp hended.last).2.2 y hy newline (by simp)
        (of_decide_eq_true hempty)
      rw [hkind] at hmark
      cases hmark
    have hlines := line_add_lineFeeds hrest hrun.starts hregular hrun.spoken.2
    rw [hnone] at hlines
    have hend : x.line + lineFeeds (stripTerminator (render (x.bare :: more))).toList =
        (p.after (x :: more)).line := by
      rw [stripTerminator_of_not_breaks hrun.spoken.not_breaks_bare]
      simpa [hafter, Reading.reached] using hlines
    obtain ⟨haligned, hfold, hstands⟩ :=
      standsFor_fold hrest hrun.starts (by rw [hlast, hafter]; rfl) hend
    have hword : newline.kind.isMark = false := by rw [hkind]; rfl
    refine ⟨aligned_append.mpr ⟨haligned, ?_, trivial⟩, ?_, hstands.append (.refl _)⟩
    · -- the newline is on the line of the last token, and the leaf owes it no line break
      rw [Reading.meets_word hword] at hnewline ⊢
      rw [hnewline, hfold, hafter, hkind]
      rfl
    · simp only [Reading.after_append, Reading.after_cons, Reading.next_word hword]
      exact .refl _

end Runs

namespace Coarsens

variable {Header : List Leaf → Prop} {p : Reading} {front : String} {a b : List Leaf}

theorem eq_of_marks (h : Coarsens Header a b) (ha : ∀ x ∈ a, x.kind.isMark = true) : b = a := by
  induction h with
  | refl tokens => rfl
  | trans first second ihfirst ihsecond =>
    obtain rfl := ihfirst ha
    exact ihsecond ha
  | append opens left right ihleft ihright =>
    rw [List.forall_mem_append] at ha
    rw [ihleft ha.1, ihright ha.2]
  | @closed run starts ends =>
    cases run with
    | nil => rfl
    | cons x more =>
      have hmark := ha x List.mem_cons_self
      rw [(word_of_tokenFirst starts).1] at hmark
      cases hmark
  | @header run newline spoken kind =>
    have hmark := ha newline (by simp)
    rw [kind] at hmark
    cases hmark

theorem emptiesLast (h : Coarsens Header a b)
    (ha : a.Pairwise fun x y => x.IsEmptyNewline → y.kind.isMark = true) :
    b.Pairwise fun x y => x.IsEmptyNewline → y.kind.isMark = true := by
  induction h with
  | refl tokens => exact ha
  | trans first second ihfirst ihsecond => exact ihsecond (ihfirst ha)
  | append opens left right ihleft ihright =>
    rw [List.pairwise_append] at ha ⊢
    obtain ⟨hleft, hright, hcross⟩ := ha
    refine ⟨ihleft hleft, ihright hright, fun x hx y hy hempty => ?_⟩
    have hmarks := fun z hz => hcross x (left.isEmptyNewline x hx hempty) z hz hempty
    exact hmarks y (right.eq_of_marks hmarks ▸ hy)
  | @closed run starts ends =>
    cases run with
    | nil => exact List.Pairwise.nil
    | cons x more => exact List.pairwise_singleton _ _
  | @header run newline spoken kind =>
    cases run with
    | nil => exact ha
    | cons x more => exact List.pairwise_pair.mpr fun hempty => TokenKind.noConfusion hempty.1

theorem ended (h : Coarsens Spoken a b) (hregular : ∀ x ∈ a, x.Regular) (ha : Ended front a) :
    Ended front b := by
  have hblank : EmptyLast a := ha.last.imp_of_mem fun {x y} _ hy hmark hempty => by
    obtain ⟨htrivia, hvalue⟩ := (hregular y hy).2 (TokenKind.isMark_iff.mp (hmark hempty))
    exact ⟨0, 0, htrivia, hvalue⟩
  obtain ⟨k, hk, hsoft⟩ := h.text hregular hblank
  refine ⟨h.emptiesLast ha.last, fun hpos => ?_⟩
  have hone := ha.empties_le_one
  obtain rfl : k = 0 := by omega
  rw [feeds_zero, String.append_empty] at hsoft
  exact (hsoft.append_left front).breaks_iff.not.mp (ha.text (by omega))

/-- Every verbatim leaf has the lines of the run that it replaced, and what comes behind stands where
it stood. -/
theorem standsFor (h : Coarsens Stretch a b) (haligned : Aligned p a)
    (hregular : ∀ x ∈ a, x.Regular) (hended : Ended front a) :
    Aligned p b ∧ (p.after a).Agrees (p.after b) ∧ StandsFor a b := by
  induction h generalizing p front with
  | refl tokens => exact ⟨haligned, .refl _, .refl _⟩
  | trans first second ihfirst ihsecond =>
    obtain ⟨hb, hagrees, hfirst⟩ := ihfirst haligned hregular hended
    have hspoken := first.mono fun _ => Stretch.spoken
    obtain ⟨hc, hagrees', hsecond⟩ :=
      ihsecond hb (first.regular hregular) (hspoken.ended hregular hended)
    exact ⟨hc, hagrees.trans hagrees', hfirst.trans hsecond⟩
  | @append a a' b b' opens left right ihleft ihright =>
    rw [aligned_append] at haligned
    have hregulars := List.forall_mem_append.mp hregular
    obtain ⟨ha', hagrees, hleft⟩ := ihleft haligned.1 hregulars.1 (hended.left opens hregulars.2)
    have hhalf : Coarsens Spoken (a ++ b) (a' ++ b) :=
      .append opens (left.mono fun _ => Stretch.spoken) (.refl b)
    obtain ⟨hb', hagrees', hright⟩ := ihright (hagrees.aligned opens haligned.2) hregulars.2
      ((hhalf.ended hregular hended).right opens)
    refine ⟨aligned_append.mpr ⟨ha', hb'⟩, ?_, hleft.append hright⟩
    rw [Reading.after_append, Reading.after_append]
    exact (hagrees.after b).trans hagrees'
  | closed starts ends => exact standsFor_closed haligned starts ends hregular hended
  | header spoken kind =>
    exact standsFor_header haligned spoken kind (List.forall_mem_append.mp hregular).1 hended

end Coarsens

theorem stretch_of_worded {before : List Leaf} {header : List Shape} (hbefore : TokenFirst before)
    (h : IsHeader header) (hworded : Worded header) :
    Stretch (before ++ Shape.tokensOfAll header) where
  spoken := spoken_of_worded before h hworded
  starts := by simpa using hbefore.append (tokenFirst_header h [])
  last := by
    obtain ⟨last, hlast⟩ := Option.isSome_iff_exists.mp
      (List.getLast?_isSome.mpr (header_tokens_ne_nil h))
    intro x hx
    rw [List.getLast?_append, hlast] at hx
    exact Option.some.inj hx ▸ h.isOrdinary last (List.mem_of_getLast? hlast)

end Collapse

open Collapse Grammar

/-- The line breaks of a program as a text has them. Only the last newline may have none, and then the
text in front of it does not end in one. -/
structure Grammar.Block.LineBroken (code : Block) : Prop where
  headers : code.Headers Worded
  regular : ∀ x ∈ code.tokens, x.Regular
  last : code.tokens.Pairwise fun x y => x.IsEmptyNewline → y.kind.isMark = true
  final : 0 < Leaf.empties code.tokens → ¬Breaks (Leaf.render code.tokens)

namespace Collapse

open Leaf

variable {t : Tree} {code : Block} {endMarker : Leaf}

theorem isProgram_of_numbered (hshape : t.HasShape (fileShape code endMarker)) (hwf : code.Wf)
    (hkind : endMarker.kind = .endMarker) (hfresh : ∀ x ∈ code.tokens, x.kind ≠ .verbatim)
    (hnumbered : Numbered (code.tokens ++ [endMarker])) (hbroken : code.LineBroken) :
    t.IsProgram code endMarker ∧ Aligned ⟨1, .stays⟩ code.tokens := by
  have htrue := hnumbered.words.left
  have haligned := htrue.aligned hfresh hbroken.regular hbroken.last
  have hend := hnumbered.words.word code.tokens endMarker [] rfl (by rw [hkind]; rfl)
  have hle := htrue.line_after_le
  obtain ⟨-, hascending⟩ := haligned.ascend hbroken.regular hnumbered.indents (by omega)
  exact ⟨⟨hshape, hwf, hkind, hfresh, hascending⟩, haligned⟩

/-- What the passes leave of the tokens stands for the lines of what was there. -/
theorem standsFor_program (h : t.IsProgram code endMarker)
    (haligned : Aligned ⟨1, .stays⟩ code.tokens) (hbroken : code.LineBroken) (keep : LineSet)
    (wholeStatements : Bool) :
    StandsFor code.tokens (sealedFirst keep wholeStatements code).tokens ∧
      StandsFor (sealedFirst keep wholeStatements code).tokens
        (blockTokens keep (sealedFirst keep wholeStatements code)) := by
  have hended : Ended "" code.tokens := by
    refine ⟨hbroken.last, fun hpos => ?_⟩
    rw [String.empty_append, ← render_eq_flow fun x hx => h.fresh x (List.mem_of_getLast? hx)]
    exact hbroken.final hpos
  have hfirst := coarsens_sealedFirst h Stretch keep wholeStatements
  have hsecond : Coarsens Stretch (sealedFirst keep wholeStatements code).tokens
      (blockTokens keep (sealedFirst keep wholeStatements code)) :=
    coarsens_block (fun before header hbefore => stretch_of_worded hbefore) _
      (sealedFirst_wf h.wf _ _) (sealedFirst_headers hbroken.headers _ _)
  obtain ⟨hmiddle, -, hstands⟩ := hfirst.standsFor haligned hbroken.regular hended
  obtain ⟨-, -, hstands'⟩ := hsecond.standsFor hmiddle (hfirst.regular hbroken.regular)
    ((hfirst.mono fun _ => Stretch.spoken).ended hbroken.regular hended)
  exact ⟨hstands, hstands'⟩

end Collapse

/-- Every verbatim leaf stands for the same lines as the run of tokens that it replaced: those that
are there after the statement pass for what was in the tree before, and those that are there in the
end both for what the statement pass left and for what was in the tree before. -/
theorem Tree.collapseUnchanged_keeps_lines {t : Tree} {code : Block} {endMarker : Leaf}
    (hshape : t.HasShape (fileShape code endMarker)) (hwf : code.Wf)
    (hkind : endMarker.kind = .endMarker) (hfresh : ∀ x ∈ code.tokens, x.kind ≠ .verbatim)
    (hnumbered : Leaf.Numbered (code.tokens ++ [endMarker])) (hbroken : code.LineBroken)
    (ranges : List LineRange) (wholeStatements : Bool) :
    ∃ v count u summary,
      (if wholeStatements then statementPass (.ofRanges ranges) t else ⟨t, .ok 0⟩) = ⟨v, .ok count⟩ ∧
      t.collapseUnchanged ranges wholeStatements = ⟨u, .ok summary⟩ ∧
      StandsFor (t.tokens [rootId]) (v.tokens [rootId]) ∧
      StandsFor (v.tokens [rootId]) (u.tokens [rootId]) ∧
      StandsFor (t.tokens [rootId]) (u.tokens [rootId]) := by
  obtain ⟨h, haligned⟩ := isProgram_of_numbered hshape hwf hkind hfresh hnumbered hbroken
  obtain ⟨hfirst, hsecond⟩ :=
    standsFor_program h haligned hbroken (.ofRanges ranges) wholeStatements
  obtain ⟨v, count, root, others, hpass, hv, hid, hroot⟩ :=
    firstPass_program h (.ofRanges ranges) wholeStatements
  obtain ⟨u, summary, hok, htokens⟩ := collapseUnchanged_program h ranges wholeStatements
  have hmiddle : v.tokens [rootId] =
      (sealedFirst (.ofRanges ranges) wholeStatements code).tokens ++ [endMarker] := by
    rw [hv.tokens_root hid, hroot, tokens_fileShape]
  have hstart := hfirst.append (.refl [endMarker])
  have hend := hsecond.append (.refl [endMarker])
  rw [← hmiddle, ← tokens_program h] at hstart
  rw [← hmiddle, ← htokens] at hend
  exact ⟨v, count, u, summary, hpass, hok, hstart, hend, hstart.trans hend⟩

theorem brokenLines_keeps_lines :
    Leaf.Numbered (brokenLines.tokens ++ [⟨.endMarker, "", "", 3⟩]) ∧ brokenLines.LineBroken ∧
    ∃ u summary, (Tree.ofProgram brokenLines ⟨.endMarker, "", "", 3⟩).collapseUnchanged [⟨1, 1⟩] true
        = ⟨u, .ok summary⟩ ∧
      StandsFor ((Tree.ofProgram brokenLines ⟨.endMarker, "", "", 3⟩).tokens [rootId])
        (u.tokens [rootId]) := by
  have hnumbered : Leaf.Numbered (brokenLines.tokens ++ [⟨.endMarker, "", "", 3⟩]) := by
    decide +kernel
  have hbroken : brokenLines.LineBroken := by
    refine ⟨brokenLines_headers, ?_, by decide +kernel, by decide +kernel⟩
    unfold Leaf.Regular
    decide +kernel
  obtain ⟨-, -, u, summary, -, hok, -, -, hstands⟩ := Tree.collapseUnchanged_keeps_lines
    (Tree.ofProgram_hasShape brokenLines _) brokenLines_wf rfl (by decide +kernel) hnumbered hbroken
    [⟨1, 1⟩] true
  exact ⟨hnumbered, hbroken, u, summary, hok, hstands⟩

/-- A line feed inside the last token, and no line break behind it. -/
def innerFeed : Block :=
  .cons (.line (.simple ([⟨.name, "", "x\n", 1⟩].map .leaf) ⟨.newline, "", "", 2⟩)) .nil

/-- If the text in front of a newline without a line break ends in a line feed, or that in front of
the newline of a suite because its header has no text, a line feed more is cut than was added. -/
theorem Tree.collapseUnchanged_loses_lines :
    (innerFeed.Wf ∧ Leaf.Numbered (innerFeed.tokens ++ [⟨.endMarker, "", "", 2⟩]) ∧
      (∀ x ∈ innerFeed.tokens, x.Regular) ∧
      ¬StandsFor ((Tree.ofProgram innerFeed ⟨.endMarker, "", "", 2⟩).tokens [rootId])
        (((Tree.ofProgram innerFeed ⟨.endMarker, "", "", 2⟩).collapseUnchanged [] true).tree.tokens
          [rootId])) ∧
    (muteHeader.Wf ∧ Leaf.Numbered (muteHeader.tokens ++ [⟨.endMarker, "", "", 4⟩]) ∧
      (∀ x ∈ muteHeader.tokens, x.Regular) ∧
      (muteHeader.Headers fun header => ¬Breaks (Leaf.render (Shape.tokensOfAll header))) ∧
      ¬StandsFor ((Tree.ofProgram muteHeader ⟨.endMarker, "", "", 4⟩).tokens [rootId])
        (((Tree.ofProgram muteHeader ⟨.endMarker, "", "", 4⟩).collapseUnchanged [⟨3, 3⟩]
          false).tree.tokens [rootId])) := by
  refine ⟨⟨?_, by decide +kernel, by unfold Leaf.Regular; decide +kernel, fun h => ?_⟩,
    muteHeader_wf, by decide +kernel, by unfold Leaf.Regular; decide +kernel, muteHeader_headers,
    fun h => ?_⟩
  · exact ⟨⟨isHeader_leaves (by simp) (by decide), rfl⟩, trivial⟩
  · have hspan := @StandsFor.span_eq [⟨.name, "", "x\n", 1⟩, ⟨.newline, "", "", 2⟩]
      [⟨.endMarker, "", "", 2⟩] ⟨.verbatim, "", "x", 1⟩ h (by decide +kernel) rfl
    exact absurd hspan (by decide +kernel)
  · have hspan := @StandsFor.span_eq
      [⟨.keyword, "", "try", 1⟩, ⟨.op, "", ":", 1⟩, ⟨.name, " ", "a", 1⟩, ⟨.newline, "", "\n", 1⟩,
        ⟨.op, "", "", 2⟩]
      [⟨.newline, "", "\n", 2⟩, ⟨.indent, "", "", 3⟩, ⟨.name, "  ", "b", 3⟩,
        ⟨.newline, "", "\n", 3⟩, ⟨.dedent, "", "", 3⟩, ⟨.endMarker, "", "", 4⟩]
      ⟨.verbatim, "", "try: a", 1⟩ h (by decide +kernel) rfl
    exact absurd hspan (by decide +kernel)

end LineScope
