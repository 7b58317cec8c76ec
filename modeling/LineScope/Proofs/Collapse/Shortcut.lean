import LineScope.Proofs.Collapse.Program
import Mathlib.Data.List.Chain

/-!
# The statement pass as a shortcut

The statement pass only takes away what the line pass takes away by itself: where it makes a
statement verbatim, no line of the statement is kept, and elsewhere it leaves what the line pass
leaves. A decorated block with a suite is different if it ends on the line of a header, for then the
line pass looks at that line together with the decorators.
-/
namespace LineScope

/-- Neither verbatim nor a mark of the line structure. -/
def Leaf.isLive (leaf : Leaf) : Bool :=
  match leaf.kind with
  | .verbatim | .newline | .indent | .dedent => false
  | _ => true

def Leaf.live (tokens : List Leaf) : List Leaf := tokens.filter Leaf.isLive

namespace Collapse

open Grammar Leaf

variable {keep : LineSet}

/-- No kept line from the first to the last line of these tokens. Where verbatim leaves end does not
count. -/
def Hidden (keep : LineSet) (tokens : List Leaf) : Prop :=
  ∃ lo hi, (∀ line, lo ≤ line → line ≤ hi → keep.contains line = false) ∧
    ∀ x ∈ tokens, lo ≤ x.line ∧ (x.kind ≠ .verbatim → x.endLine ≤ hi)

section Hiding

variable {a b : List Leaf}

theorem Hidden.mono (h : Hidden keep a) (hsub : b ⊆ a) : Hidden keep b := by
  obtain ⟨lo, hi, hfree, ha⟩ := h
  exact ⟨lo, hi, hfree, fun x hx => ha x (hsub hx)⟩

theorem Hidden.coarsens {Header : List Leaf → Prop} (h : Hidden keep a) (hab : Coarsens Header a b) :
    Hidden keep b := by
  obtain ⟨lo, hi, hfree, ha⟩ := h
  refine ⟨lo, hi, hfree, fun x hx => ⟨?_, fun hkind => ?_⟩⟩
  · obtain ⟨y, hy, hline⟩ := hab.starts x hx
    exact hline ▸ (ha y hy).1
  · exact (ha x ((hab.kept x hx).resolve_left hkind)).2 hkind

theorem Hidden.clear (h : Hidden keep a) (hlast : ∀ x ∈ a.getLast?, x.kind ≠ .verbatim) :
    clear keep a = true := by
  obtain ⟨lo, hi, hfree, ha⟩ := h
  rcases List.eq_nil_or_concat a with rfl | ⟨init, last, rfl⟩
  · rfl
  · rw [List.concat_eq_append] at ha hlast ⊢
    obtain ⟨first, hfirst⟩ := Option.isSome_iff_exists.mp
      (List.isSome_head?.mpr (List.append_ne_nil_of_right_ne_nil init (List.cons_ne_nil last [])))
    rw [← Bool.not_eq_false, clear_eq_false_iff hfirst List.getLast?_concat]
    rintro ⟨line, hline, hfrom, hto⟩
    have hlo := (ha first (List.mem_of_mem_head? hfirst)).1
    have hhi := (ha last (by simp)).2 (hlast last (by simp))
    rw [hfree line (hlo.trans hfrom) (hto.trans hhi)] at hline
    exact Bool.noConfusion hline

theorem hidden_of_clear (h : clear keep a = true) (ha : a.Pairwise fun x y => x.endLine ≤ y.line) :
    Hidden keep a := by
  rcases List.eq_nil_or_concat a with rfl | ⟨init, last, rfl⟩
  · exact ⟨1, 0, by omega, by simp⟩
  · rw [List.concat_eq_append] at h ha ⊢
    obtain ⟨first, rest, hfirst⟩ := List.exists_cons_of_ne_nil
      (List.append_ne_nil_of_right_ne_nil init (List.cons_ne_nil last []))
    have hkept := @clear_eq_false_iff keep (init ++ [last]) first last
      (by rw [hfirst, List.head?_cons]) List.getLast?_concat
    refine ⟨first.line, last.endLine, fun line hfrom hto => ?_, fun x hx => ⟨?_, fun _ => ?_⟩⟩
    · rw [← Bool.not_eq_true]
      intro hline
      rw [hkept.mpr ⟨line, hline, hfrom, hto⟩] at h
      exact Bool.noConfusion h
    · rw [hfirst] at ha hx
      rcases List.mem_cons.mp hx with rfl | hx
      · exact Nat.le_refl _
      · exact first.line_le_endLine.trans ((List.pairwise_cons.mp ha).1 x hx)
    · rcases List.mem_append.mp hx with hx | hx
      · exact ((List.pairwise_append.mp ha).2.2 x hx last (by simp)).trans last.line_le_endLine
      · rw [List.mem_singleton.mp hx]

end Hiding

section Shown

/-- A choice of leaves without verbatim ones and marks of indentation. -/
def Shows (shown : Leaf → Bool) : Prop :=
  ∀ x, x.kind = .verbatim ∨ x.kind = .indent ∨ x.kind = .dedent → shown x = false

def Indents (shown : Leaf → Bool) (tokens : List Leaf) : Prop :=
  tokens.IsChain fun x y => x.kind = .newline → y.kind = .indent → shown x = false

theorem shows_isLive : Shows isLive := by
  rintro x (hx | hx | hx) <;> simp [isLive, hx]

theorem indents_isLive (tokens : List Leaf) : Indents isLive tokens := by
  refine (List.pairwise_of_forall fun x y hx _ => ?_).isChain
  simp [isLive, hx]

variable {a b : List Leaf} {shown : Leaf → Bool}

theorem Indents.suite {newline indent dedent : Leaf}
    (h : Indents shown (a ++ suiteTokens newline indent b dedent)) : Indents shown b :=
  List.IsChain.left_of_append (List.IsChain.tail (List.IsChain.tail h.right_of_append))

variable (hshows : Shows shown)
include hshows

theorem filter_fold (run : List Leaf) : (fold run).filter shown = [] := by
  cases run with
  | nil => rfl
  | cons x more => simp [fold, hshows (verbatim x _) (.inl rfl)]

theorem filter_sealRun (h : Hidden keep a) (hlast : ∀ x ∈ a.getLast?, x.kind ≠ .verbatim) :
    (sealRun keep a).filter shown = [] := by
  rw [sealRun, if_pos (h.clear hlast), filter_fold hshows]

theorem filter_sealClosed (h : a.filter shown = []) : (sealClosed keep a).filter shown = [] := by
  unfold sealClosed sealRun
  split
  · split
    · exact filter_fold hshows a
    · exact h
  · exact h

theorem filter_sealClosed_of_endsLine (h : Hidden keep a) (hends : endsLine a = true) :
    (sealClosed keep a).filter shown = [] := by
  obtain ⟨pre, newline, rfl, hkind⟩ := endsLine_iff.mp hends
  rw [sealClosed, if_pos hends]
  exact filter_sealRun hshows h (by simp [hkind])

omit hshows in
theorem sealClosed_of_not_endsLine (h : endsLine a = false) : sealClosed keep a = a := by
  rw [sealClosed, h, if_neg Bool.false_ne_true]

omit hshows in
theorem sealClosed_concat {x : Leaf} (h : x.kind ≠ .newline) :
    sealClosed keep (a ++ [x]) = a ++ [x] :=
  sealClosed_of_not_endsLine (by simp [endsLine, h])

omit hshows in
theorem sealClosed_suiteTokens {newline indent dedent : Leaf} (hdedent : dedent.kind = .dedent)
    (body : List Leaf) : sealClosed keep (a ++ suiteTokens newline indent body dedent) =
      a ++ suiteTokens newline indent body dedent :=
  sealClosed_of_not_endsLine (by simp [endsLine, suiteTokens, hdedent, List.getLast?_cons])

theorem filter_suiteTokens {newline indent dedent : Leaf} (hnewline : newline.kind = .newline)
    (hindent : indent.kind = .indent) (hdedent : dedent.kind = .dedent) {inner : List Leaf}
    (h : Indents shown (a ++ suiteTokens newline indent inner dedent)) (body : List Leaf) :
    (suiteTokens newline indent body dedent).filter shown = body.filter shown := by
  have hfirst : shown newline = false :=
    (List.isChain_cons_cons.mp h.right_of_append).1 hnewline hindent
  simp [suiteTokens, hfirst, hshows indent (.inr (.inl hindent)),
    hshows dedent (.inr (.inr hdedent))]

end Shown

section Ends

theorem exists_last_lineTokens {lines : List Line} (hne : lines ≠ []) (hwf : ∀ line ∈ lines, line.Wf)
    (hfresh : ∀ x ∈ Shape.tokensOfAll (lines.map Line.shape), x.kind ≠ .verbatim) :
    ∃ init newline, lineTokens keep false lines = init ++ [newline] ∧ newline.kind = .newline := by
  induction lines with
  | nil => exact absurd rfl hne
  | cons line rest ih =>
    rw [List.forall_mem_cons] at hwf
    cases rest with
    | nil =>
      cases line with
      | verbatim leaf =>
        refine absurd hwf.1 (hfresh leaf ?_)
        simp [Line.shape, Shape.tokens, Shape.tokensOfAll]
      | simple parts newline =>
        exact ⟨Shape.tokensOfAll parts, newline, tokens_simple parts newline, hwf.1.2⟩
    | cons next rest =>
      obtain ⟨init, newline, heq, hkind⟩ := ih (by simp) hwf.2 fun x hx =>
        hfresh x (List.mem_append_right _ hx)
      exact ⟨_ ++ init, newline, by rw [lineTokens, heq, List.append_assoc], hkind⟩

theorem exists_last_clauseTokens (clauses : Clauses) (hwf : clauses.Wf)
    (hfresh : ∀ x ∈ clauses.tokens, x.kind ≠ .verbatim) (mode : Mode) (before : List Leaf) :
    ∃ init last, clauseTokens keep mode before clauses = init ++ [last] ∧
      decide (last.kind = .newline) = clauses.endsInline := by
  cases clauses with
  | inline header body =>
    rw [tokens_inline] at hfresh
    obtain ⟨init, newline, heq, hkind⟩ := @exists_last_lineTokens keep body hwf.2.1 hwf.2.2
      fun x hx => hfresh x (List.mem_append_right _ hx)
    exact ⟨_ ++ init, newline, by rw [clauseTokens, heq, ← List.append_assoc],
      by simp [hkind, Clauses.endsInline]⟩
  | suite header newline indent body dedent =>
    obtain ⟨-, -, -, -, hdedent⟩ := hwf
    exact ⟨sealHeader keep mode (before ++ Shape.tokensOfAll header) ++
      newline :: indent :: blockTokens keep body, dedent, by simp [clauseTokens, suiteTokens],
      by simp [hdedent, Clauses.endsInline]⟩
  | inlineThen header body rest =>
    rw [tokens_inlineThen] at hfresh
    exact exists_last_clauseTokens rest hwf.2 (fun x hx => hfresh x (List.mem_append_right _ hx)) mode _
  | suiteThen header newline indent body dedent rest =>
    rw [tokens_suiteThen, ← List.append_assoc] at hfresh
    obtain ⟨init, last, heq, hkind⟩ := exists_last_clauseTokens rest hwf.2
      (fun x hx => hfresh x (List.mem_append_right _ hx))
      (mode.next keep (before ++ Shape.tokensOfAll header)) []
    exact ⟨_ ++ init, last, by rw [clauseTokens, heq, ← List.append_assoc], hkind⟩

theorem endsLine_ledTokens {clauses : Clauses} (hwf : clauses.Wf)
    (hfresh : ∀ x ∈ clauses.tokens, x.kind ≠ .verbatim) (lead : Option Lead) (front : List Leaf) :
    endsLine (front ++ ledTokens keep lead clauses) = clauses.endsInline := by
  have hclauses (mode : Mode) (before : List Leaf) :
      endsLine (front ++ clauseTokens keep mode before clauses) = clauses.endsInline := by
    obtain ⟨init, last, heq, hkind⟩ := @exists_last_clauseTokens keep clauses hwf hfresh mode before
    rw [heq, ← hkind]
    simp [endsLine, ← List.append_assoc]
  cases lead with
  | none => exact hclauses .free []
  | some lead => exact hclauses .led [lead.key]

end Ends

section Gone

mutual

theorem headers_statement {P : List Shape → Prop} (hP : ∀ header, P header) (s : Statement) :
    s.Headers P := by
  cases s with
  | line line => trivial
  | definition decorators leaf => trivial
  | compound decorators lead symbol clauses => exact headers_clauses hP clauses
  | choice header newline indent options dedent => exact ⟨hP header, headers_block hP options⟩

theorem headers_block {P : List Shape → Prop} (hP : ∀ header, P header) (block : Block) :
    block.Headers P := by
  cases block with
  | nil => trivial
  | cons statement rest => exact ⟨headers_statement hP statement, headers_block hP rest⟩

theorem headers_clauses {P : List Shape → Prop} (hP : ∀ header, P header) (clauses : Clauses) :
    clauses.Headers P := by
  cases clauses with
  | inline header body => exact hP header
  | suite header newline indent body dedent => exact ⟨hP header, headers_block hP body⟩
  | inlineThen header body rest => exact ⟨hP header, headers_clauses hP rest⟩
  | suiteThen header newline indent body dedent rest =>
    exact ⟨⟨hP header, headers_block hP body⟩, headers_clauses hP rest⟩

end

variable {shown : Leaf → Bool}

theorem filter_sealHeader (hshows : Shows shown) {mode : Mode} (hmode : mode ≠ .pinned)
    {header : List Shape} (hheader : IsHeader header) {before : List Leaf}
    (h : Hidden keep (before ++ Shape.tokensOfAll header)) :
    (sealHeader keep mode (before ++ Shape.tokensOfAll header)).filter shown = [] ∧
      mode.next keep (before ++ Shape.tokensOfAll header) ≠ .pinned := by
  have hlast := header_getLast? hheader before
  rw [sealHeader, if_neg hmode]
  refine ⟨filter_sealRun hshows h hlast, ?_⟩
  cases mode with
  | free => simp [Mode.next]
  | led => simp [Mode.next, h.clear hlast]
  | pinned => exact absurd rfl hmode

theorem filter_decorators (hshows : Shows shown) {decorators : List Decorator}
    (h : ∀ d ∈ decorators, d.Wf)
    (hhidden : Hidden keep (Shape.tokensOfAll (decoratorsShape decorators))) :
    (sealRun keep (Shape.tokensOfAll (decoratorsShape decorators))).filter shown = [] := by
  refine filter_sealRun hshows hhidden ?_
  rcases terminated_decorators h with heq | hends
  · simp [heq]
  · exact hends.getLast?

mutual

theorem filter_statement (hshows : Shows shown) (s : Statement) (hwf : s.Wf)
    (hfresh : ∀ x ∈ s.tokens, x.kind ≠ .verbatim) (hindents : Indents shown s.tokens)
    (h : Hidden keep s.tokens) : (sealClosed keep (innerTokens keep s)).filter shown = [] := by
  cases s with
  | line line =>
    cases line with
    | verbatim leaf => exact absurd hwf (hfresh leaf (List.mem_singleton_self leaf))
    | simple parts newline =>
      refine filter_sealClosed_of_endsLine hshows h (endsLine_iff.mpr ?_)
      exact ⟨_, newline, tokens_simple parts newline, hwf.2⟩
  | definition decorators leaf =>
    refine absurd hwf.2.2 (hfresh leaf ?_)
    simp [tokens_definition]
  | choice header newline indent options dedent =>
    obtain ⟨hheader, hnewline, hindent, hoptions, hdedent⟩ := hwf
    rw [tokens_choice] at hfresh hindents h
    have hsub : options.tokens ⊆ Shape.tokensOfAll header ++
        suiteTokens newline indent options.tokens dedent := fun x hx =>
      List.mem_append_right _ ((sublist_suiteTokens ..).subset hx)
    have hblock := filter_block hshows options hoptions (fun x hx => hfresh x (hsub hx))
      hindents.suite (h.mono hsub)
    have hhead : (sealRun keep (Shape.tokensOfAll header)).filter shown = [] :=
      filter_sealRun hshows (h.mono (List.subset_append_left _ _)) (header_getLast? hheader [])
    refine filter_sealClosed hshows ?_
    rw [innerTokens, List.filter_append, hhead,
      filter_suiteTokens hshows hnewline hindent hdedent hindents, hblock]
    rfl
  | compound decorators lead symbol clauses =>
    have hcoarsens := @coarsens_inner (fun _ => True) keep (fun _ => True) (fun _ _ _ _ _ => trivial)
      (.compound decorators lead symbol clauses) hwf (headers_statement (fun _ => trivial) _)
    obtain ⟨hdecorators, -, -, hclauses⟩ := hwf
    rw [tokens_compound] at hfresh hindents
    have hrest : ∀ x ∈ clauses.tokens, x.kind ≠ .verbatim := fun x hx =>
      hfresh x (List.mem_append_right _ hx)
    have hends := @endsLine_ledTokens keep clauses hclauses hrest lead
      (sealRun keep (Shape.tokensOfAll (decoratorsShape decorators)))
    rw [← innerTokens_compound keep decorators lead symbol clauses] at hends
    by_cases hinline : clauses.endsInline = true
    · exact filter_sealClosed_of_endsLine hshows (h.coarsens hcoarsens) (hends.trans hinline)
    · rw [tokens_compound, List.append_assoc] at h
      refine filter_sealClosed hshows ?_
      rw [innerTokens_compound, List.filter_append,
        filter_decorators hshows hdecorators (h.mono (List.subset_append_left _ _)),
        List.nil_append]
      have hlead := h.mono (List.subset_append_right _ _)
      have hinner := hindents.right_of_append
      cases lead with
      | none =>
        exact filter_clauses hshows clauses hclauses hrest hinner hinline .free [] (by simp) hlead
      | some lead =>
        exact filter_clauses hshows clauses hclauses hrest hinner hinline .led [lead.key] (by simp)
          hlead

theorem filter_block (hshows : Shows shown) (block : Block) (hwf : block.Wf)
    (hfresh : ∀ x ∈ block.tokens, x.kind ≠ .verbatim) (hindents : Indents shown block.tokens)
    (h : Hidden keep block.tokens) : (blockTokens keep block).filter shown = [] := by
  cases block with
  | nil => rfl
  | cons statement rest =>
    rw [Block.tokens, Block.shapes, Shape.tokensOfAll] at hfresh hindents h
    rw [blockTokens, List.filter_append,
      filter_statement hshows statement hwf.1 (fun x hx => hfresh x (List.mem_append_left _ hx))
        hindents.left_of_append (h.mono (List.subset_append_left _ _)),
      filter_block hshows rest hwf.2 (fun x hx => hfresh x (List.mem_append_right _ hx))
        hindents.right_of_append (h.mono (List.subset_append_right _ _))]
    rfl

/-- The same for clauses that end with a suite, from the first header on. -/
theorem filter_clauses (hshows : Shows shown) (clauses : Clauses) (hwf : clauses.Wf)
    (hfresh : ∀ x ∈ clauses.tokens, x.kind ≠ .verbatim) (hindents : Indents shown clauses.tokens)
    (hends : ¬clauses.endsInline = true) (mode : Mode) (before : List Leaf) (hmode : mode ≠ .pinned)
    (h : Hidden keep (before ++ clauses.tokens)) :
    (clauseTokens keep mode before clauses).filter shown = [] := by
  cases clauses with
  | inline header body => exact absurd rfl hends
  | suite header newline indent body dedent =>
    obtain ⟨hheader, hnewline, hindent, hbody, hdedent⟩ := hwf
    rw [tokens_suite] at hfresh hindents h
    rw [← List.append_assoc] at h
    have hblock := filter_block hshows body hbody
      (fun x hx => hfresh x (List.mem_append_right _ ((sublist_suiteTokens ..).subset hx)))
      hindents.suite
      (h.mono fun x hx => List.mem_append_right _ ((sublist_suiteTokens ..).subset hx))
    obtain ⟨hhead, -⟩ :=
      filter_sealHeader hshows hmode hheader (h.mono (List.subset_append_left _ _))
    rw [clauseTokens, List.filter_append, hhead,
      filter_suiteTokens hshows hnewline hindent hdedent hindents, hblock]
    rfl
  | inlineThen header body rest =>
    rw [tokens_inlineThen] at hfresh hindents h
    refine filter_clauses hshows rest hwf.2 (fun x hx => hfresh x (List.mem_append_right _ hx))
      hindents.right_of_append hends mode _ hmode ?_
    rw [← List.append_assoc, ← List.append_assoc] at h
    refine @Hidden.coarsens keep _ _ (fun _ => True) h ?_
    exact .append (opens_clauses hwf.2)
      (.append (opens_lines hwf.1.2.2) (.refl _) (coarsens_lines true hwf.1.2.2)) (.refl _)
  | suiteThen header newline indent body dedent rest =>
    obtain ⟨⟨hheader, hnewline, hindent, hbody, hdedent⟩, hrest⟩ := hwf
    rw [tokens_suiteThen] at hfresh hindents h
    rw [← List.append_assoc] at h hindents
    have hsuite := h.mono (List.subset_append_right _ _)
    have hblock := filter_block hshows body hbody
      (fun x hx => hfresh x (List.mem_append_right _
        (List.mem_append_left _ ((sublist_suiteTokens ..).subset hx))))
      (Indents.suite hindents.left_of_append)
      (hsuite.mono fun x hx => List.mem_append_left _ ((sublist_suiteTokens ..).subset hx))
    obtain ⟨hhead, hnext⟩ :=
      filter_sealHeader hshows hmode hheader (h.mono (List.subset_append_left _ _))
    have hmore := filter_clauses hshows rest hrest
      (fun x hx => hfresh x (List.mem_append_right _ (List.mem_append_right _ hx)))
      hindents.right_of_append hends (mode.next keep (before ++ Shape.tokensOfAll header)) [] hnext
      (hsuite.mono (List.subset_append_right _ _))
    rw [clauseTokens, List.filter_append, List.filter_append, hhead,
      filter_suiteTokens hshows hnewline hindent hdedent hindents.left_of_append, hblock, hmore]
    rfl

end

end Gone

section Kept

theorem sealClosed_sealLine {line : Line} (h : line.Wf) :
    sealClosed keep (sealLine keep line).shape.tokens = sealClosed keep line.shape.tokens := by
  cases line with
  | verbatim leaf => rfl
  | simple parts newline =>
    rw [sealLine]
    split
    · next leaf hleaf =>
      obtain ⟨hclear, hfold⟩ := sealed?_eq_some hleaf
      have hends : endsLine (Line.simple parts newline).shape.tokens = true :=
        endsLine_iff.mpr ⟨_, newline, tokens_simple parts newline, h.2⟩
      have hkind : leaf.kind = .verbatim := sealed?_kind hleaf
      rw [sealClosed, if_neg (by simp [Line.shape, Shape.tokens, endsLine, hkind]), sealClosed,
        if_pos hends, sealRun, if_pos hclear, hfold, Line.shape, Shape.tokens]
    · rfl

theorem lineTokens_cons (closed : Bool) (line : Line) {rest : List Line} (h : rest ≠ []) :
    lineTokens keep closed (line :: rest) =
      sealClosed keep line.shape.tokens ++ lineTokens keep closed rest := by
  obtain ⟨next, rest, rfl⟩ := List.exists_cons_of_ne_nil h
  rfl

theorem lineTokens_sealLines {lines : List Line} (h : ∀ line ∈ lines, line.Wf) :
    lineTokens keep true (lines.map (sealLine keep)) = lineTokens keep true lines := by
  induction lines with
  | nil => rfl
  | cons line rest ih =>
    rw [List.forall_mem_cons] at h
    by_cases hrest : rest = []
    · subst hrest
      exact sealClosed_sealLine h.1
    · rw [List.map_cons, lineTokens_cons true _ (by simpa using hrest), lineTokens_cons true _ hrest,
        sealClosed_sealLine h.1, ih h.2]

theorem lineTokens_sealInit {lines : List Line} (h : ∀ line ∈ lines, line.Wf) :
    lineTokens keep false (sealInit keep lines) = lineTokens keep false lines := by
  induction lines with
  | nil => rfl
  | cons line rest ih =>
    rw [List.forall_mem_cons] at h
    cases rest with
    | nil => rfl
    | cons next rest =>
      rw [sealInit, lineTokens_cons false _ (sealInit_ne_nil (by simp)),
        lineTokens_cons false _ (by simp), sealClosed_sealLine h.1, ih h.2]

/-- Sealing the lines inside a block first makes no difference to the line pass. -/
theorem clauseTokens_sealClauses (clauses : Clauses) (h : clauses.Wf) (mode : Mode)
    (before : List Leaf) :
    clauseTokens keep mode before (sealClauses keep clauses) =
      clauseTokens keep mode before clauses := by
  cases clauses with
  | inline header body => rw [sealClauses, clauseTokens, clauseTokens, lineTokens_sealInit h.2.2]
  | suite header newline indent body dedent => rfl
  | inlineThen header body rest =>
    rw [sealClauses, clauseTokens, clauseTokens, lineTokens_sealLines h.1.2.2,
      clauseTokens_sealClauses rest h.2]
  | suiteThen header newline indent body dedent rest =>
    rw [sealClauses, clauseTokens, clauseTokens, clauseTokens_sealClauses rest h.2]

theorem innerTokens_sealClauses (decorators : List Decorator) (lead : Option Lead) (symbol : Symbol)
    {clauses : Clauses} (h : clauses.Wf) :
    innerTokens keep (.compound decorators lead symbol (sealClauses keep clauses)) =
      innerTokens keep (.compound decorators lead symbol clauses) := by
  cases lead <;> simp only [innerTokens, clauseTokens_sealClauses clauses h]

end Kept

section Shortcut

variable {shown : Leaf → Bool}

theorem filter_verbatim (hshows : Shows shown) {leaf : Leaf} (h : leaf.kind = .verbatim) :
    [leaf].filter shown = [] := by
  simp [hshows leaf (.inl h)]

/-- A block that goes at a suite has no kept lines, and only its decorators can be left. -/
theorem filter_standIn (hshows : Shows shown) {decorators : List Decorator} {lead : Option Lead}
    {symbol : Symbol} {clauses : Clauses}
    (hwf : (Statement.compound decorators lead symbol clauses).Wf)
    (hfresh : ∀ x ∈ (Statement.compound decorators lead symbol clauses).tokens, x.kind ≠ .verbatim)
    (hindents : Indents shown (Statement.compound decorators lead symbol clauses).tokens)
    (hdecorated : decorators ≠ [] → clauses.endsInline = false)
    (hhidden : Hidden keep (leadTokens lead ++ clauses.tokens)) {leaf : Leaf}
    (hleaf : leaf.kind = .verbatim) :
    (sealClosed keep (innerTokens keep (standIn decorators leaf))).filter shown =
      (sealClosed keep (innerTokens keep (.compound decorators lead symbol clauses))).filter
        shown := by
  cases decorators with
  | nil =>
    have hbare := filter_statement hshows _ hwf hfresh hindents (by rwa [tokens_compound])
    rw [hbare]
    exact filter_sealClosed hshows (filter_verbatim hshows hleaf)
  | cons d ds =>
    have hends := hdecorated (by simp)
    obtain ⟨-, -, -, hclauses⟩ := hwf
    rw [tokens_compound] at hfresh hindents
    have hrest : ∀ x ∈ clauses.tokens, x.kind ≠ .verbatim := fun x hx =>
      hfresh x (List.mem_append_right _ hx)
    have hled : (ledTokens keep lead clauses).filter shown = [] := by
      have hinner := @filter_clauses keep shown hshows clauses hclauses hrest
        hindents.right_of_append (by simp [hends])
      cases lead with
      | none => exact hinner .free [] (by simp) hhidden
      | some lead => exact hinner .led [lead.key] (by simp) hhidden
    have hopen := (@endsLine_ledTokens keep clauses hclauses hrest lead
      (sealRun keep (Shape.tokensOfAll (decoratorsShape (d :: ds))))).trans hends
    rw [innerTokens_compound, sealClosed_of_not_endsLine hopen, List.filter_append, hled]
    change (sealClosed keep (sealRun keep _ ++ [leaf])).filter shown = _
    rw [sealClosed_concat (by simp [hleaf]), List.filter_append, filter_verbatim hshows hleaf]

mutual

theorem filter_sealStatement (hshows : Shows shown) (s : Statement) (hwf : s.Wf)
    (hfresh : ∀ x ∈ s.tokens, x.kind ≠ .verbatim) (hindents : Indents shown s.tokens)
    (hlines : s.tokens.Pairwise fun x y => x.endLine ≤ y.line) (hdecorated : s.WellDecorated) :
    (sealClosed keep (innerTokens keep (sealStatement keep s))).filter shown =
      (sealClosed keep (innerTokens keep s)).filter shown := by
  cases s with
  | line line => exact congrArg (List.filter shown) (sealClosed_sealLine hwf)
  | definition decorators leaf => rfl
  | choice header newline indent options dedent =>
    obtain ⟨-, hnewline, hindent, hoptions, hdedent⟩ := hwf
    rw [tokens_choice] at hfresh hindents hlines
    have hblock := filter_sealBlock hshows options hoptions
      (fun x hx => hfresh x (List.mem_append_right _ ((sublist_suiteTokens ..).subset hx)))
      hindents.suite
      (hlines.sublist ((sublist_suiteTokens ..).trans (List.sublist_append_right _ _))) hdecorated
    rw [sealStatement, innerTokens, innerTokens, sealClosed_suiteTokens hdedent,
      sealClosed_suiteTokens hdedent, List.filter_append, List.filter_append,
      filter_suiteTokens hshows hnewline hindent hdedent hindents,
      filter_suiteTokens hshows hnewline hindent hdedent hindents, hblock]
  | compound decorators lead symbol clauses =>
    rw [sealStatement]
    split
    · next leaf hleaf =>
      unfold sealedBlock? at hleaf
      split at hleaf
      · next hsuite =>
        have hclear := (sealed?_eq_some hleaf).1
        rw [clear_sealToSuite clauses hwf.2.2.2] at hclear
        rw [tokens_compound, List.append_assoc] at hlines
        exact filter_standIn hshows hwf hfresh hindents (fun hne => hdecorated hne hsuite)
          (hidden_of_clear hclear (hlines.sublist (List.sublist_append_right _ _)))
          (sealed?_kind hleaf)
      · cases hleaf
    · split
      · next leaf hleaf =>
        unfold sealedWhole? at hleaf
        split at hleaf
        · have hclear := (sealed?_eq_some hleaf).1
          rw [tokens_compound, clear_sealClauses clauses hwf.2.2.2, ← tokens_compound] at hclear
          rw [filter_statement hshows _ hwf hfresh hindents (hidden_of_clear hclear hlines)]
          exact filter_sealClosed hshows (filter_verbatim hshows (sealed?_kind hleaf))
        · cases hleaf
      · rw [innerTokens_sealClauses decorators lead symbol hwf.2.2.2]

/-- The line pass leaves the same with and without the statement pass before it. -/
theorem filter_sealBlock (hshows : Shows shown) (block : Block) (hwf : block.Wf)
    (hfresh : ∀ x ∈ block.tokens, x.kind ≠ .verbatim) (hindents : Indents shown block.tokens)
    (hlines : block.tokens.Pairwise fun x y => x.endLine ≤ y.line)
    (hdecorated : block.WellDecorated) :
    (blockTokens keep (sealBlock keep block)).filter shown =
      (blockTokens keep block).filter shown := by
  cases block with
  | nil => rfl
  | cons statement rest =>
    rw [Block.tokens, Block.shapes, Shape.tokensOfAll] at hfresh hindents hlines
    rw [List.pairwise_append] at hlines
    rw [sealBlock, blockTokens, blockTokens, List.filter_append, List.filter_append,
      filter_sealStatement hshows statement hwf.1 (fun x hx => hfresh x (List.mem_append_left _ hx))
        hindents.left_of_append hlines.1 hdecorated.1,
      filter_sealBlock hshows rest hwf.2 (fun x hx => hfresh x (List.mem_append_right _ hx))
        hindents.right_of_append hlines.2.1 hdecorated.2]

end

end Shortcut

end Collapse

open Collapse Grammar

/-- With and without the statement pass the same tokens are left. -/
theorem Tree.collapseUnchanged_live {t : Tree} {code : Block} {endMarker : Leaf}
    (h : t.IsProgram code endMarker) (hdecorated : code.WellDecorated) (ranges : List LineRange) :
    ∃ u v whole lines, t.collapseUnchanged ranges true = ⟨u, .ok whole⟩ ∧
      t.collapseUnchanged ranges false = ⟨v, .ok lines⟩ ∧
      Leaf.live (u.tokens [rootId]) = Leaf.live (v.tokens [rootId]) := by
  obtain ⟨u, whole, hwhole, hu⟩ := collapseUnchanged_program h ranges true
  obtain ⟨v, lines, hlines, hv⟩ := collapseUnchanged_program h ranges false
  refine ⟨u, v, whole, lines, hwhole, hlines, ?_⟩
  have hascending := (List.pairwise_append.mp h.ascending.pairwise).1
  rw [hu, hv, Leaf.live, Leaf.live, List.filter_append, List.filter_append]
  exact congrArg (· ++ _) (filter_sealBlock shows_isLive code h.wf h.fresh (indents_isLive _)
    hascending hdecorated)

def decoratedDef : Block :=
  .cons (.compound
      [⟨[⟨.op, "", "@", 1⟩, ⟨.name, "", "d", 1⟩].map .leaf, ⟨.newline, "", "\n", 1⟩⟩] none .funcdef
      (.suite ([⟨.keyword, "", "def", 2⟩, ⟨.name, " ", "f():", 2⟩].map .leaf)
        ⟨.newline, "", "\n", 2⟩ ⟨.indent, "", "", 3⟩
        (.cons (.line (.simple ([⟨.name, "  ", "a", 3⟩].map .leaf) ⟨.newline, "", "\n", 3⟩)) .nil)
        ⟨.dedent, "", "", 3⟩))
    .nil

theorem decoratedDef_live :
    ∃ u v whole lines,
      (Tree.ofProgram decoratedDef ⟨.endMarker, "", "", 4⟩).collapseUnchanged [⟨1, 1⟩] true =
        ⟨u, .ok whole⟩ ∧
      (Tree.ofProgram decoratedDef ⟨.endMarker, "", "", 4⟩).collapseUnchanged [⟨1, 1⟩] false =
        ⟨v, .ok lines⟩ ∧
      Leaf.live (u.tokens [rootId]) = Leaf.live (v.tokens [rootId]) := by
  have hwf : decoratedDef.Wf :=
    ⟨⟨List.forall_mem_singleton.mpr ⟨isHeader_leaves (by simp) (by decide), rfl⟩, by simp,
      by simp [blockForms], isHeader_leaves (by simp) (by decide), rfl, rfl,
      ⟨⟨isHeader_leaves (by simp) (by decide), rfl⟩, trivial⟩, rfl⟩, trivial⟩
  refine Tree.collapseUnchanged_live (Tree.ofProgram_isProgram hwf rfl (by decide +kernel) ?_)
    ⟨fun _ _ => rfl, trivial⟩ [⟨1, 1⟩]
  unfold Leaf.LinesAscend
  decide +kernel

/-- A decorated block with a suite that ends on the line of its second header. -/
def decoratedIf : Block :=
  .cons (.compound
      [⟨[⟨.op, "", "@", 1⟩, ⟨.name, "", "d", 1⟩].map .leaf, ⟨.newline, "", "\n", 1⟩⟩]
      (some ⟨.asyncFuncdef, ⟨.async, "", "async", 2⟩⟩) .ifStmt
      (.suiteThen
        ([⟨.keyword, " ", "if", 2⟩, ⟨.name, " ", "x", 2⟩, ⟨.op, "", ":", 2⟩].map .leaf)
        ⟨.newline, "", "\n", 2⟩ ⟨.indent, "", "", 3⟩
        (.cons (.line (.simple ([⟨.name, "  ", "a", 3⟩].map .leaf) ⟨.newline, "", "\n", 3⟩)) .nil)
        ⟨.dedent, "", "", 3⟩
        (.inline ([⟨.keyword, "", "else", 4⟩, ⟨.op, "", ":", 4⟩].map .leaf)
          [.simple ([⟨.name, " ", "b", 4⟩].map .leaf) ⟨.newline, "", "\n", 4⟩])))
    .nil

theorem decoratedIf_live_ne :
    (Tree.ofProgram decoratedIf ⟨.endMarker, "", "", 5⟩).IsProgram decoratedIf
        ⟨.endMarker, "", "", 5⟩ ∧
      (Tree.ofProgram decoratedIf ⟨.endMarker, "", "", 5⟩).source =
        "@d\nasync if x:\n  a\nelse: b\n" ∧
      Leaf.live (((Tree.ofProgram decoratedIf ⟨.endMarker, "", "", 5⟩).collapseUnchanged
          [⟨1, 1⟩] true).tree.tokens [rootId]) ≠
        Leaf.live (((Tree.ofProgram decoratedIf ⟨.endMarker, "", "", 5⟩).collapseUnchanged
          [⟨1, 1⟩] false).tree.tokens [rootId]) := by
  have hwf : decoratedIf.Wf :=
    ⟨⟨List.forall_mem_singleton.mpr ⟨isHeader_leaves (by simp) (by decide), rfl⟩,
      by simpa using ⟨by simp, rfl⟩, by simp [blockForms],
      ⟨isHeader_leaves (by simp) (by decide), rfl, rfl,
        ⟨⟨isHeader_leaves (by simp) (by decide), rfl⟩, trivial⟩, rfl⟩,
      isHeader_leaves (by simp) (by decide), by simp,
      List.forall_mem_singleton.mpr ⟨isHeader_leaves (by simp) (by decide), rfl⟩⟩, trivial⟩
  refine ⟨Tree.ofProgram_isProgram hwf rfl (by decide +kernel) ?_, by decide +kernel,
    by decide +kernel⟩
  unfold Leaf.LinesAscend
  decide +kernel

end LineScope
