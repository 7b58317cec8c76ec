import LineScope.Proofs.Collapse.SourceText
import Mathlib.Data.List.Chain

/-!
# Tokens on the lines of their texts

A reading of tokens knows the line on which the last one ended and whether a line break is due, and
every token stands on the line that follows from this. Unlike a count of the line feeds in front of
a token, this can be said of a run of tokens by itself.
-/
namespace LineScope

open Text

namespace Leaf

/-- How a token leaves its line: what comes next is on the same line, or on the next one, or on the
next one unless it is a newline. -/
inductive Turn where
  | stays
  | breaks
  | owes
  deriving DecidableEq

/-- The line on which the last token that is no mark of indentation ended, and how it was left. -/
structure Reading where
  line : Nat
  turn : Turn

namespace Reading

/-- The lines from the last token to the trivia of one of this kind. -/
def gap (p : Reading) (kind : TokenKind) : Nat :=
  match p.turn with
  | .stays => 0
  | .breaks => 1
  | .owes => if kind = .newline then 0 else 1

def reached (p : Reading) : Nat := p.line + if p.turn = .breaks then 1 else 0

def Meets (p : Reading) (x : Leaf) : Prop :=
  if x.kind.isMark then x.kind = .dedent → x.line = p.line
  else x.line = p.line + p.gap x.kind + lineFeeds x.trivia.toList

def next (p : Reading) (x : Leaf) : Reading :=
  if x.kind.isMark then ⟨p.line, if p.turn = .owes then .breaks else p.turn⟩
  else ⟨x.endLine, if x.kind = .newline then .breaks else if x.kind = .verbatim then .owes else .stays⟩

def after (p : Reading) (tokens : List Leaf) : Reading := tokens.foldl next p

end Reading

/-- Tokens of which each stands where those before it put it. -/
def Aligned (p : Reading) : List Leaf → Prop
  | [] => True
  | x :: rest => p.Meets x ∧ Aligned (p.next x) rest

section Readings

variable {p q : Reading} {x y : Leaf} {a b tokens : List Leaf}

namespace Reading

theorem after_nil : p.after [] = p := rfl

theorem after_cons : p.after (x :: a) = (p.next x).after a := rfl

theorem after_append : p.after (a ++ b) = (p.after a).after b := List.foldl_append

theorem meets_word (h : x.kind.isMark = false) :
    p.Meets x ↔ x.line = p.line + p.gap x.kind + lineFeeds x.trivia.toList := by
  simp [Meets, h]

theorem meets_mark (h : x.kind.isMark = true) : p.Meets x ↔ (x.kind = .dedent → x.line = p.line) := by
  simp [Meets, h]

theorem next_word (h : x.kind.isMark = false) : p.next x =
    ⟨x.endLine, if x.kind = .newline then .breaks else if x.kind = .verbatim then .owes else .stays⟩ := by
  simp [next, h]

theorem next_mark (h : x.kind.isMark = true) :
    p.next x = ⟨p.line, if p.turn = .owes then .breaks else p.turn⟩ := by
  simp [next, h]

theorem gap_of_ne {kind : TokenKind} (h : kind ≠ .newline) :
    p.gap kind = if p.turn = .stays then 0 else 1 := by
  rcases p with ⟨line, _ | _ | _⟩ <;> simp [gap, h]

/-- Readings that are alike for a token that is no newline. -/
def Agrees (p q : Reading) : Prop := p.line = q.line ∧ (p.turn = .stays ↔ q.turn = .stays)

theorem Agrees.refl (p : Reading) : p.Agrees p := ⟨rfl, Iff.rfl⟩

theorem Agrees.trans {r : Reading} (h : p.Agrees q) (h' : q.Agrees r) : p.Agrees r :=
  ⟨h.1.trans h'.1, h.2.trans h'.2⟩

theorem Agrees.gap_eq (h : p.Agrees q) {kind : TokenKind} (hkind : kind ≠ .newline) :
    p.gap kind = q.gap kind := by
  rw [gap_of_ne hkind, gap_of_ne hkind]
  simp only [h.2]

theorem Agrees.next_eq (h : p.Agrees q) (x : Leaf) : p.next x = q.next x := by
  obtain ⟨hline, hturn⟩ := h
  cases hx : x.kind.isMark with
  | false => rw [next_word hx, next_word hx]
  | true =>
    rw [next_mark hx, next_mark hx, hline]
    rcases p with ⟨line, _ | _ | _⟩ <;> rcases q with ⟨line', _ | _ | _⟩ <;> simp_all

theorem Agrees.after (h : p.Agrees q) (tokens : List Leaf) :
    (p.after tokens).Agrees (q.after tokens) := by
  cases tokens with
  | nil => exact h
  | cons x rest =>
    rw [after_cons, after_cons, h.next_eq x]
    exact .refl _

theorem Agrees.meets (h : p.Agrees q) (hx : x.kind ≠ .newline) (hp : p.Meets x) : q.Meets x := by
  unfold Meets at hp ⊢
  rwa [← h.1, ← h.gap_eq hx]

theorem Agrees.aligned (h : p.Agrees q) (hopens : Collapse.Opens tokens) (ha : Aligned p tokens) :
    Aligned q tokens := by
  cases tokens with
  | nil => trivial
  | cons x rest => exact ⟨h.meets (hopens x rfl) ha.1, h.next_eq x ▸ ha.2⟩

end Reading

theorem aligned_append : Aligned p (a ++ b) ↔ Aligned p a ∧ Aligned (p.after a) b := by
  induction a generalizing p with
  | nil => simp [Aligned, Reading.after_nil]
  | cons x a ih => simp only [List.cons_append, Aligned, ih, Reading.after_cons, and_assoc]

theorem Regular.endLine_mark (h : x.Regular) (hmark : x.kind.isMark = true) :
    x.endLine = x.line := by
  obtain ⟨-, hvalue⟩ := h.2 (TokenKind.isMark_iff.mp hmark)
  rcases TokenKind.isMark_iff.mp hmark with hkind | hkind <;>
    simp [endLine, hkind, hvalue, lineFeeds]

theorem lineFeeds_append (s s' : String) :
    lineFeeds (s ++ s').toList = lineFeeds s.toList + lineFeeds s'.toList := by
  simp [lineFeeds]

theorem empties_cons (x : Leaf) (a : List Leaf) :
    empties (x :: a) = empties a + if x.IsEmptyNewline then 1 else 0 := by
  simp [empties, List.countP_cons]

/-- The text of a token reaches as far as its end line says, but for a newline without a text. -/
theorem Reading.reached_next (hmeets : p.Meets x) (hregular : x.Regular) :
    p.line + p.gap x.kind + lineFeeds x.trivia.toList + lineFeeds x.value.toList +
      (if x.IsEmptyNewline then 1 else 0) = (p.next x).reached := by
  cases hmark : x.kind.isMark with
  | true =>
    have hkind : x.kind ≠ .newline := by
      rintro hkind
      simp [hkind, TokenKind.isMark] at hmark
    obtain ⟨htrivia, hvalue⟩ := hregular.2 (TokenKind.isMark_iff.mp hmark)
    rw [next_mark hmark, htrivia, hvalue, if_neg fun h => hkind h.1]
    rcases p with ⟨line, _ | _ | _⟩ <;> simp [gap, reached, lineFeeds, hkind]
  | false =>
    have hline := (meets_word hmark).mp hmeets
    rw [next_word hmark, ← hline]
    by_cases hkind : x.kind = .newline
    · have hspelled := hregular.1 hkind
      simp only [List.mem_cons, List.not_mem_nil, or_false] at hspelled
      rcases hspelled with hvalue | hvalue | hvalue <;>
        simp [hkind, hvalue, reached, endLine, IsEmptyNewline, lineFeeds]
    · have hend : x.endLine = x.line + lineFeeds x.value.toList := by
        unfold endLine
        cases hk : x.kind <;> simp_all
      rw [if_neg hkind, hend, if_neg fun h => hkind h.1]
      by_cases hverbatim : x.kind = .verbatim <;> simp [hverbatim, reached]

/-- A verbatim leaf gives back the line break that it owes. -/
theorem Reading.reached_add (y : Leaf) (rest : List Leaf) :
    (p.next x).reached + lineFeeds (x.breakAfter (y :: rest)).toList =
      (p.next x).line + (p.next x).gap y.kind := by
  cases hmark : x.kind.isMark with
  | true =>
    have hbreak : x.breakAfter (y :: rest) = "" := by
      cases hk : x.kind <;> simp_all [TokenKind.isMark, breakAfter]
    rw [next_mark hmark, hbreak]
    rcases p with ⟨line, _ | _ | _⟩ <;> simp [gap, reached, lineFeeds]
  | false =>
    rw [next_word hmark]
    by_cases hkind : x.kind = .newline
    · simp [hkind, reached, gap, breakAfter, lineFeeds]
    · by_cases hverbatim : x.kind = .verbatim
      · by_cases hy : y.kind = .newline <;>
          simp [hverbatim, reached, gap, breakAfter, lineFeeds, hy]
      · simp [hkind, hverbatim, reached, gap, breakAfter, lineFeeds]

/-- The text of tokens has the line feeds that lie between their lines, but for one for each newline
without a text. -/
theorem Aligned.reached_after (h : Aligned p (x :: tokens)) (hregular : ∀ y ∈ x :: tokens, y.Regular) :
    p.line + p.gap x.kind + lineFeeds (render (x :: tokens)).toList + empties (x :: tokens) =
      (p.after (x :: tokens)).reached := by
  induction tokens generalizing p x with
  | nil =>
    have hrender : render [x] = x.trivia ++ x.value := by simp [render, breakAfter]
    have hx := Reading.reached_next h.1 (hregular x List.mem_cons_self)
    rw [Reading.after_cons, Reading.after_nil, ← hx, hrender, lineFeeds_append, empties_cons]
    simp only [empties, List.countP_nil]
    omega
  | cons y rest ih =>
    have hx := Reading.reached_next h.1 (hregular x List.mem_cons_self)
    have hy := @Reading.reached_add p x y rest
    have hrest := ih h.2 fun z hz => hregular z (List.mem_cons_of_mem _ hz)
    rw [Reading.after_cons, ← hrest, render, empties_cons x]
    simp only [lineFeeds_append]
    omega

/-- The last token ends on the line that was read last. -/
theorem Aligned.endLine_eq {last : Leaf} (h : Aligned p (a ++ [last]))
    (hregular : last.Regular) (hkind : last.kind ≠ .indent) :
    last.endLine = (p.after (a ++ [last])).line := by
  rw [aligned_append] at h
  rw [Reading.after_append, Reading.after_cons, Reading.after_nil]
  cases hmark : last.kind.isMark with
  | false => rw [Reading.next_word hmark]
  | true =>
    have hdedent := (TokenKind.isMark_iff.mp hmark).resolve_left hkind
    have hline : last.line = (p.after a).line := (Reading.meets_mark hmark).mp h.2.1 hdedent
    rw [Reading.next_mark hmark, hregular.endLine_mark hmark, hline]

end Readings

section Lines

variable {p : Reading} {tokens : List Leaf}

theorem LinesTrue.left {start : Nat} {more : List Leaf} (h : LinesTrue start (tokens ++ more)) :
    LinesTrue start tokens := by
  constructor
  · rintro before x after rfl
    exact h.word before x (after ++ more) (by simp)
  · rintro before x after rfl
    exact h.dedent before x (after ++ more) (by simp)

/-- The reading stands on the end line of the last token with a text. -/
theorem Reading.line_after {last : Leaf} (h : lastWord? tokens = some last) :
    (p.after tokens).line = last.endLine := by
  induction tokens using List.reverseRecOn with
  | nil => simp [lastWord?] at h
  | append_singleton before x ih =>
    rw [after_append, after_cons, after_nil]
    rw [lastWord?_append] at h
    cases hmark : x.kind.isMark with
    | false =>
      rw [lastWord?_word hmark, Option.some_or, Option.some.injEq] at h
      rw [next_word hmark, h]
    | true =>
      rw [lastWord?_mark hmark, Option.none_or] at h
      rw [next_mark hmark, ih h]

theorem Reading.turn_after_ne (hp : p.turn ≠ .owes) (hfresh : ∀ x ∈ tokens, x.kind ≠ .verbatim) :
    (p.after tokens).turn ≠ .owes := by
  induction tokens generalizing p with
  | nil => exact hp
  | cons x rest ih =>
    rw [List.forall_mem_cons] at hfresh
    refine ih ?_ hfresh.2
    cases hmark : x.kind.isMark with
    | false =>
      rw [next_word hmark]
      by_cases hkind : x.kind = .newline <;> simp [hkind, hfresh.1]
    | true => simp [next_mark hmark, hp]

theorem lineFeeds_render (hfresh : ∀ x ∈ tokens, x.kind ≠ .verbatim) :
    lineFeeds (render tokens).toList = feedCount tokens := by
  induction tokens with
  | nil => rfl
  | cons x rest ih =>
    rw [List.forall_mem_cons] at hfresh
    have hbreak : x.breakAfter rest = "" := by
      cases rest <;> simp [breakAfter, hfresh.1]
    rw [render, hbreak, feedCount_cons, ← ih hfresh.2]
    simp only [lineFeeds_append, String.append_empty]

/-- Tokens that stand on the lines of their texts, if no text comes behind a newline without one. -/
theorem LinesTrue.aligned {start : Nat} (h : LinesTrue start tokens)
    (hfresh : ∀ x ∈ tokens, x.kind ≠ .verbatim) (hregular : ∀ x ∈ tokens, x.Regular)
    (hlast : tokens.Pairwise fun x y => x.IsEmptyNewline → y.kind.isMark = true) :
    Aligned ⟨start, .stays⟩ tokens := by
  induction tokens using List.reverseRecOn with
  | nil => trivial
  | append_singleton before x ih =>
    rw [List.forall_mem_append] at hfresh hregular
    rw [List.pairwise_append] at hlast
    have hbefore := ih h.left hfresh.1 hregular.1 hlast.1
    refine aligned_append.mpr ⟨hbefore, ?_, trivial⟩
    cases hmark : x.kind.isMark with
    | true =>
      refine (Reading.meets_mark hmark).mpr fun hkind => ?_
      obtain ⟨last, hword, hline⟩ := h.dedent before x [] rfl hkind
      rw [hline, Reading.line_after hword]
    | false =>
      -- in front of a word there is no newline without a text, so no line feed is missing
      have hnone : empties before = 0 := List.countP_eq_zero.mpr fun y hy hempty => by
        rw [hlast.2.2 y hy x (by simp) (of_decide_eq_true hempty)] at hmark
        cases hmark
      rw [Reading.meets_word hmark, h.word before x [] rfl hmark]
      cases before with
      | nil => rfl
      | cons y rest =>
        have hreached := hbefore.reached_after hregular.1
        have howes := @Reading.turn_after_ne ⟨start, .stays⟩ (y :: rest) (by simp) hfresh.1
        rw [hnone, lineFeeds_render hfresh.1, Reading.reached] at hreached
        generalize (Reading.after ⟨start, .stays⟩ (y :: rest)) = q at hreached howes ⊢
        rcases q with ⟨line, _ | _ | _⟩ <;> simp_all [Reading.gap]

/-- Tokens on the lines of their texts, each indent on the line of the token behind it. -/
structure Numbered (tokens : List Leaf) : Prop where
  words : LinesTrue 1 tokens
  indents : tokens.IsChain fun x y => x.kind = .indent → x.line = y.line

instance (tokens : List Leaf) : Decidable (Numbered tokens) :=
  decidable_of_iff _ ⟨fun h : LinesTrue 1 tokens ∧ _ => ⟨h.1, h.2⟩, fun h => ⟨h.words, h.indents⟩⟩

theorem LinesTrue.line_after_le {start : Nat} (h : LinesTrue start tokens) :
    (Reading.after ⟨start, .stays⟩ tokens).line ≤ start + feedCount tokens := by
  induction tokens using List.reverseRecOn with
  | nil => exact Nat.le_refl _
  | append_singleton before x ih =>
    have hbefore := ih h.left
    rw [Reading.after_append, Reading.after_cons, Reading.after_nil, feedCount_append]
    cases hmark : x.kind.isMark with
    | true =>
      rw [Reading.next_mark hmark]
      exact hbefore.trans (by omega)
    | false =>
      have hend : x.endLine ≤ x.line + lineFeeds x.value.toList := by
        unfold endLine
        split <;> omega
      rw [Reading.next_word hmark, feedCount_cons, feedCount_nil]
      rw [h.word before x [] rfl hmark] at hend
      exact hend.trans (by omega)

theorem Aligned.ascend {w : Leaf} (h : Aligned p tokens) (hregular : ∀ x ∈ tokens, x.Regular)
    (hindents : (tokens ++ [w]).IsChain fun x y => x.kind = .indent → x.line = y.line)
    (hw : (p.after tokens).line ≤ w.line) :
    (∀ x ∈ (tokens ++ [w]).head?, p.line ≤ x.line) ∧ LinesAscend (tokens ++ [w]) := by
  induction tokens generalizing p with
  | nil => exact ⟨by simpa [Reading.after_nil] using hw, List.isChain_singleton _⟩
  | cons x rest ih =>
    rw [List.forall_mem_cons] at hregular
    rw [List.cons_append, List.isChain_cons] at hindents
    obtain ⟨hhead, hrest⟩ := ih h.2 hregular.2 hindents.2 hw
    obtain ⟨y, hy⟩ : ∃ y, (rest ++ [w]).head? = some y := by
      cases rest <;> exact ⟨_, rfl⟩
    have hnext := hhead y hy
    suffices hx : p.line ≤ x.line ∧ x.endLine ≤ y.line from
      ⟨by simpa using hx.1, List.isChain_cons.mpr ⟨by simpa [hy] using hx.2, hrest⟩⟩
    cases hmark : x.kind.isMark with
    | false =>
      rw [Reading.next_word hmark] at hnext
      exact ⟨by rw [(Reading.meets_word hmark).mp h.1]; omega, hnext⟩
    | true =>
      rw [Reading.next_mark hmark] at hnext
      rw [hregular.1.endLine_mark hmark]
      rcases TokenKind.isMark_iff.mp hmark with hk | hk
      · have hline : x.line = y.line := hindents.1 y hy hk
        exact ⟨hline ▸ hnext, hline.le⟩
      · have hline : x.line = p.line := (Reading.meets_mark hmark).mp h.1 hk
        exact ⟨hline.ge, hline ▸ hnext⟩

end Lines

end Leaf

end LineScope
