import LineScope.Proofs.Collapse.StatementPass

/-!
# Runs that become verbatim

Both passes fold two kinds of runs of tokens: whole lines, up to a newline and the marks of
indentation behind it, and headers, whose newline stays. `Collapse.Coarsens` is the least relation
with these two rules that is kept by appending, and what holds of both passes follows from it.
-/
namespace LineScope

namespace Collapse

open Grammar Leaf

def Opens (tokens : List Leaf) : Prop := ∀ x ∈ tokens.head?, x.kind ≠ .newline

/-- The last token is a newline, or a dedent with only marks of indentation since the newline. -/
def Terminated (tokens : List Leaf) : Prop :=
  ∃ pre newline post, tokens = pre ++ newline :: post ∧ newline.kind = .newline ∧
    (∀ x ∈ post, x.kind = .indent ∨ x.kind = .dedent) ∧ ∀ x ∈ post.getLast?, x.kind = .dedent

inductive Coarsens (Header : List Leaf → Prop) : List Leaf → List Leaf → Prop
  | refl (tokens : List Leaf) : Coarsens Header tokens tokens
  | trans {a b c : List Leaf} (first : Coarsens Header a b) (second : Coarsens Header b c) :
      Coarsens Header a c
  | append {a a' b b' : List Leaf} (opens : Opens b) (left : Coarsens Header a a')
      (right : Coarsens Header b b') : Coarsens Header (a ++ b) (a' ++ b')
  | closed {run : List Leaf} (starts : TokenFirst run) (ends : Terminated run) :
      Coarsens Header run (fold run)
  | header {run : List Leaf} {newline : Leaf} (spoken : Header run)
      (kind : newline.kind = .newline) : Coarsens Header (run ++ [newline]) (fold run ++ [newline])

section Opening

theorem opens_append {a b : List Leaf} (ha : Opens a) (hb : Opens b) : Opens (a ++ b) := by
  cases a with
  | nil => exact hb
  | cons x more => exact ha

theorem opens_cons {x : Leaf} {more : List Leaf} (h : x.kind ≠ .newline) : Opens (x :: more) := by
  simpa [Opens] using h

theorem opens_of_tokenFirst {tokens : List Leaf} (h : TokenFirst tokens) : Opens tokens := by
  intro x hx hkind
  have hlayout := h x hx
  rw [hkind] at hlayout
  cases hlayout

theorem tokenFirst_cons {x : Leaf} (h : x.kind.isLayout = false) (more : List Leaf) :
    TokenFirst (x :: more) := by
  simpa [TokenFirst] using h

theorem tokenFirst_fold (run : List Leaf) : TokenFirst (fold run) := by
  cases run with
  | nil => simp [fold, TokenFirst]
  | cons x more => exact tokenFirst_cons rfl []

theorem mem_fold {run : List Leaf} {x : Leaf} (h : x ∈ fold run) :
    x.kind = .verbatim ∧ ∃ y ∈ run, y.line = x.line := by
  cases run with
  | nil => simp [fold] at h
  | cons y more =>
    rw [List.mem_singleton.mp h]
    exact ⟨rfl, y, List.mem_cons_self, rfl⟩

end Opening

namespace Coarsens

variable {Header : List Leaf → Prop} {a b : List Leaf}

theorem mono {Header' : List Leaf → Prop} (himp : ∀ run, Header run → Header' run)
    (h : Coarsens Header a b) : Coarsens Header' a b := by
  induction h with
  | refl tokens => exact .refl tokens
  | trans first second ihfirst ihsecond => exact .trans ihfirst ihsecond
  | append opens left right ihleft ihright => exact .append opens ihleft ihright
  | closed starts ends => exact .closed starts ends
  | header spoken kind => exact .header (himp _ spoken) kind

theorem kept (h : Coarsens Header a b) : ∀ x ∈ b, x.kind = .verbatim ∨ x ∈ a := by
  induction h with
  | refl tokens => exact fun x hx => .inr hx
  | trans first second ihfirst ihsecond =>
    intro x hx
    rcases ihsecond x hx with hkind | hmem
    · exact .inl hkind
    · exact ihfirst x hmem
  | append opens left right ihleft ihright =>
    intro x hx
    rcases List.mem_append.mp hx with hx | hx
    · exact (ihleft x hx).imp_right (List.mem_append_left _)
    · exact (ihright x hx).imp_right (List.mem_append_right _)
  | closed starts ends => exact fun x hx => .inl (mem_fold hx).1
  | header spoken kind =>
    intro x hx
    rcases List.mem_append.mp hx with hx | hx
    · exact .inl (mem_fold hx).1
    · exact .inr (List.mem_append_right _ hx)

/-- Every token is on the line of one that was there before. -/
theorem starts (h : Coarsens Header a b) : ∀ x ∈ b, ∃ y ∈ a, y.line = x.line := by
  induction h with
  | refl tokens => exact fun x hx => ⟨x, hx, rfl⟩
  | trans first second ihfirst ihsecond =>
    intro x hx
    obtain ⟨y, hy, hxy⟩ := ihsecond x hx
    obtain ⟨z, hz, hyz⟩ := ihfirst y hy
    exact ⟨z, hz, hyz.trans hxy⟩
  | append opens left right ihleft ihright =>
    intro x hx
    rcases List.mem_append.mp hx with hx | hx
    · obtain ⟨y, hy, hline⟩ := ihleft x hx
      exact ⟨y, List.mem_append_left _ hy, hline⟩
    · obtain ⟨y, hy, hline⟩ := ihright x hx
      exact ⟨y, List.mem_append_right _ hy, hline⟩
  | closed starts ends => exact fun x hx => (mem_fold hx).2
  | header spoken kind =>
    intro x hx
    rcases List.mem_append.mp hx with hx | hx
    · obtain ⟨y, hy, hline⟩ := (mem_fold hx).2
      exact ⟨y, List.mem_append_left _ hy, hline⟩
    · exact ⟨x, List.mem_append_right _ hx, rfl⟩

theorem ordered (h : Coarsens Header a b) (ha : Leaf.Ordered a) : Leaf.Ordered b := by
  have hfold (run : List Leaf) : Leaf.Ordered (fold run) := by
    cases run with
    | nil => exact List.Pairwise.nil
    | cons x more => exact List.pairwise_singleton _ _
  induction h with
  | refl tokens => exact ha
  | trans first second ihfirst ihsecond => exact ihsecond (ihfirst ha)
  | append opens left right ihleft ihright =>
    rw [Leaf.Ordered, List.pairwise_append] at ha ⊢
    obtain ⟨hleft, hright, hcross⟩ := ha
    refine ⟨ihleft hleft, ihright hright, fun x hx y hy hkind => ?_⟩
    obtain ⟨z, hz, hline⟩ := right.starts y hy
    exact hline ▸ hcross x ((left.kept x hx).resolve_left hkind) z hz hkind
  | closed starts ends => exact hfold _
  | header spoken kind =>
    refine List.pairwise_append.mpr ⟨hfold _, List.pairwise_singleton _ _, fun x hx y hy hkind => ?_⟩
    exact absurd (mem_fold hx).1 hkind

theorem opens (h : Coarsens Header a b) (ha : Opens a) : Opens b := by
  induction h with
  | refl tokens => exact ha
  | trans first second ihfirst ihsecond => exact ihsecond (ihfirst ha)
  | @append a a' b b' opens left right ihleft ihright =>
    refine opens_append (ihleft ?_) (ihright opens)
    cases a with
    | nil => simp [Opens]
    | cons x more => exact ha
  | closed starts ends => exact opens_of_tokenFirst (tokenFirst_fold _)
  | @header run newline spoken kind =>
    cases run with
    | nil => exact ha
    | cons x more => exact opens_cons (by simp [verbatim])

theorem ne_nil (h : Coarsens Header a b) (ha : a ≠ []) : b ≠ [] := by
  induction h with
  | refl tokens => exact ha
  | trans first second ihfirst ihsecond => exact ihsecond (ihfirst ha)
  | append opens left right ihleft ihright =>
    rw [ne_eq, List.append_eq_nil_iff, not_and_or] at ha ⊢
    exact ha.imp ihleft ihright
  | @closed run starts ends =>
    cases run with
    | nil => exact ha
    | cons x more => exact List.cons_ne_nil _ _
  | header spoken kind => simp

theorem tokenFirst (h : Coarsens Header a b) (ha : TokenFirst a) : TokenFirst b := by
  induction h with
  | refl tokens => exact ha
  | trans first second ihfirst ihsecond => exact ihsecond (ihfirst ha)
  | @append a a' b b' opens left right ihleft ihright =>
    cases a with
    | nil => exact TokenFirst.append (ihleft (by simp [TokenFirst])) (ihright ha)
    | cons x more =>
      refine TokenFirst.append_right (ihleft ha) ?_ b'
      exact left.ne_nil (List.cons_ne_nil x more)
  | closed starts ends => exact tokenFirst_fold _
  | @header run newline spoken kind =>
    cases run with
    | nil => exact ha
    | cons x more => exact tokenFirst_cons rfl _

end Coarsens

section Lines

variable {Header : List Leaf → Prop} {keep : LineSet}

theorem Terminated.append_left {b : List Leaf} (h : Terminated b) (a : List Leaf) :
    Terminated (a ++ b) := by
  obtain ⟨pre, newline, post, rfl, hkind, hpost⟩ := h
  exact ⟨a ++ pre, newline, post, by simp, hkind, hpost⟩

theorem terminated_concat (a : List Leaf) {newline : Leaf} (h : newline.kind = .newline) :
    Terminated (a ++ [newline]) := ⟨a, newline, [], rfl, h, by simp, by simp⟩

theorem Terminated.getLast? {run : List Leaf} (h : Terminated run) :
    ∀ x ∈ run.getLast?, x.kind ≠ .verbatim := by
  obtain ⟨pre, newline, post, rfl, hkind, hpost, -⟩ := h
  intro x hx
  rw [List.getLast?_append_cons] at hx
  rcases List.mem_cons.mp (List.mem_of_getLast? hx) with rfl | hmem
  · simp [hkind]
  · rcases hpost x hmem with hx | hx <;> simp [hx]

theorem coarsens_sealRun {run : List Leaf} (hstarts : TokenFirst run) (h : Terminated run) :
    Coarsens Header run (sealRun keep run) := by
  unfold sealRun
  split
  · exact .closed hstarts h
  · exact .refl run

theorem endsLine_iff {run : List Leaf} :
    endsLine run = true ↔ ∃ pre newline, run = pre ++ [newline] ∧ newline.kind = .newline := by
  rcases List.eq_nil_or_concat run with rfl | ⟨pre, last, rfl⟩
  · simp [endsLine]
  · simp [endsLine]

theorem coarsens_sealClosed {run : List Leaf} (hstarts : TokenFirst run) :
    Coarsens Header run (sealClosed keep run) := by
  unfold sealClosed
  split
  · next h =>
    obtain ⟨pre, newline, rfl, hkind⟩ := endsLine_iff.mp h
    exact coarsens_sealRun hstarts (terminated_concat pre hkind)
  · exact .refl run

theorem tokenFirst_header {header : List Shape} (h : IsHeader header) (rest : List Leaf) :
    TokenFirst (Shape.tokensOfAll header ++ rest) := by
  have hordinary := h.isOrdinary
  obtain ⟨x, more, heq⟩ := List.exists_cons_of_ne_nil (header_tokens_ne_nil h)
  rw [heq] at hordinary ⊢
  exact tokenFirst_cons (TokenKind.isLayout_eq_false (hordinary x (by simp))) _

theorem header_getLast? {header : List Shape} (h : IsHeader header) (before : List Leaf) :
    ∀ x ∈ (before ++ Shape.tokensOfAll header).getLast?, x.kind ≠ .verbatim := by
  intro x hx hkind
  obtain ⟨last, hlast⟩ := Option.isSome_iff_exists.mp
    (List.getLast?_isSome.mpr (header_tokens_ne_nil h))
  rw [List.getLast?_append, hlast] at hx
  obtain rfl : last = x := Option.some.inj hx
  have hordinary := h.isOrdinary last (List.mem_of_getLast? hlast)
  rw [hkind] at hordinary
  exact Bool.noConfusion hordinary

theorem tokens_simple (parts : List Shape) (newline : Leaf) :
    (Line.simple parts newline).shape.tokens = Shape.tokensOfAll parts ++ [newline] := by
  simp [Line.shape, Shape.tokens, Shape.tokensOfAll]

theorem tokenFirst_line {line : Line} (h : line.Wf) : TokenFirst line.shape.tokens := by
  cases line with
  | verbatim leaf => exact tokenFirst_cons (by rw [h]; rfl) []
  | simple parts newline =>
    rw [tokens_simple]
    exact tokenFirst_header h.1 _

theorem opens_lines {lines : List Line} (h : ∀ line ∈ lines, line.Wf) :
    Opens (Shape.tokensOfAll (lines.map Line.shape)) := by
  induction lines with
  | nil => simp [Opens, Shape.tokensOfAll]
  | cons line rest ih =>
    rw [List.forall_mem_cons] at h
    exact opens_append (opens_of_tokenFirst (tokenFirst_line h.1)) (ih h.2)

theorem coarsens_lines (closed : Bool) {lines : List Line} (h : ∀ line ∈ lines, line.Wf) :
    Coarsens Header (Shape.tokensOfAll (lines.map Line.shape)) (lineTokens keep closed lines) := by
  induction lines with
  | nil => exact .refl []
  | cons line rest ih =>
    rw [List.forall_mem_cons] at h
    cases rest with
    | nil =>
      rw [lineTokens, List.map_singleton, Shape.tokensOfAll, Shape.tokensOfAll, List.append_nil]
      split
      · exact coarsens_sealClosed (tokenFirst_line h.1)
      · exact .refl _
    | cons next rest =>
      exact .append (opens_lines h.2) (coarsens_sealClosed (tokenFirst_line h.1)) (ih h.2)

theorem tokens_decorator (d : Decorator) :
    d.shape.tokens = Shape.tokensOfAll d.parts ++ [d.newline] := by
  simp [Decorator.shape, Shape.tokens, Shape.tokensOfAll]

theorem tokens_decorators (decorators : List Decorator) :
    Shape.tokensOfAll (decoratorsShape decorators) =
      Shape.tokensOfAll (decorators.map Decorator.shape) := by
  match decorators with
  | [] => rfl
  | [d] => rfl
  | d :: e :: ds => simp [decoratorsShape, Shape.tokens, Shape.tokensOfAll]

theorem terminated_decorators {decorators : List Decorator} (h : ∀ d ∈ decorators, d.Wf) :
    Shape.tokensOfAll (decoratorsShape decorators) = [] ∨
      Terminated (Shape.tokensOfAll (decoratorsShape decorators)) := by
  rcases List.eq_nil_or_concat decorators with rfl | ⟨init, d, rfl⟩
  · exact .inl rfl
  · right
    rw [tokens_decorators, List.concat_eq_append, List.map_append, Shape.tokensOfAll_append]
    refine Terminated.append_left ?_ _
    rw [List.map_singleton, Shape.tokensOfAll, Shape.tokensOfAll, List.append_nil, tokens_decorator]
    exact terminated_concat _ (h d (by simp)).2

theorem tokenFirst_decorators {decorators : List Decorator} (h : ∀ d ∈ decorators, d.Wf) :
    TokenFirst (Shape.tokensOfAll (decoratorsShape decorators)) := by
  rw [tokens_decorators]
  cases decorators with
  | nil => simp [TokenFirst, Shape.tokensOfAll]
  | cons d ds =>
    rw [List.map_cons, Shape.tokensOfAll, tokens_decorator, List.append_assoc]
    exact tokenFirst_header (h d (by simp)).1 _

theorem coarsens_decorators {decorators : List Decorator} (h : ∀ d ∈ decorators, d.Wf) :
    Coarsens Header (Shape.tokensOfAll (decoratorsShape decorators))
      (sealRun keep (Shape.tokensOfAll (decoratorsShape decorators))) := by
  rcases terminated_decorators h with heq | hends
  · rw [heq, sealRun, fold, ite_self]
    exact .refl []
  · exact coarsens_sealRun (tokenFirst_decorators h) hends

end Lines

section Programs

variable {Header : List Leaf → Prop} {keep : LineSet}

theorem tokenFirst_clauses {clauses : Clauses} (h : clauses.Wf) : TokenFirst clauses.tokens := by
  cases clauses with
  | inline header body =>
    rw [tokens_inline]
    exact tokenFirst_header h.1 _
  | suite header newline indent body dedent =>
    rw [tokens_suite]
    exact tokenFirst_header h.1 _
  | inlineThen header body rest =>
    rw [tokens_inlineThen, List.append_assoc]
    exact tokenFirst_header h.1.1 _
  | suiteThen header newline indent body dedent rest =>
    rw [tokens_suiteThen]
    exact tokenFirst_header h.1.1 _

theorem opens_clauses {clauses : Clauses} (h : clauses.Wf) : Opens clauses.tokens :=
  opens_of_tokenFirst (tokenFirst_clauses h)

theorem tokenFirst_lead {lead : Option Lead} (h : ∀ l ∈ lead, l.Wf) :
    TokenFirst (lead.toList.map Lead.key) := by
  cases lead with
  | none => simp [TokenFirst]
  | some lead => exact tokenFirst_cons (by rw [(h lead rfl).2]; rfl) []

theorem tokenFirst_statement {s : Statement} (h : s.Wf) : TokenFirst s.tokens := by
  cases s with
  | line line => exact tokenFirst_line h
  | compound decorators lead symbol clauses =>
    obtain ⟨hdecorators, hlead, -, hclauses⟩ := h
    rw [tokens_compound]
    exact ((tokenFirst_decorators hdecorators).append (tokenFirst_lead hlead)).append
      (tokenFirst_clauses hclauses)
  | definition decorators leaf =>
    rw [tokens_definition]
    exact (tokenFirst_decorators h.2.1).append (tokenFirst_cons (by rw [h.2.2]; rfl) [])
  | choice header newline indent options dedent =>
    rw [tokens_choice]
    exact tokenFirst_header h.1 _

theorem opens_block (block : Block) (h : block.Wf) : Opens block.tokens := by
  cases block with
  | nil => simp [Opens, Block.tokens, Block.shapes, Shape.tokensOfAll]
  | cons statement rest =>
    exact opens_append (opens_of_tokenFirst (tokenFirst_statement h.1)) (opens_block rest h.2)

/-- A suite behind its header, which may be folded. -/
theorem coarsens_suite {run header body body' : List Leaf} {newline indent dedent : Leaf}
    (hheader : Coarsens Header (run ++ [newline]) (header ++ [newline]))
    (hindent : indent.kind = .indent) (hdedent : dedent.kind = .dedent) (hopens : Opens body)
    (hbody : Coarsens Header body body') :
    Coarsens Header (run ++ suiteTokens newline indent body dedent)
      (header ++ suiteTokens newline indent body' dedent) := by
  have hdedents : Opens [dedent] := opens_cons (by simp [hdedent])
  have hindents : Opens (indent :: (body ++ [dedent])) := opens_cons (by simp [hindent])
  have hinside : Coarsens Header (indent :: (body ++ [dedent])) (indent :: (body' ++ [dedent])) :=
    .append (a := [indent]) (opens_append hopens hdedents) (.refl _) (.append hdedents hbody (.refl _))
  simpa [suiteTokens] using Coarsens.append hindents hheader hinside

theorem coarsens_sealHeader {run : List Leaf} (mode : Mode) {newline : Leaf} (hrun : Header run)
    (hkind : newline.kind = .newline) :
    Coarsens Header (run ++ [newline]) (sealHeader keep mode run ++ [newline]) := by
  unfold sealHeader sealRun
  split
  · exact .refl _
  · split
    · exact .header hrun hkind
    · exact .refl _

variable {P : List Shape → Prop}

mutual

theorem coarsens_inner (hP : ∀ before header, TokenFirst before → IsHeader header → P header →
      Header (before ++ Shape.tokensOfAll header)) (s : Statement) (hwf : s.Wf) (hs : s.Headers P) :
    Coarsens Header s.tokens (innerTokens keep s) := by
  cases s with
  | line line => exact .refl _
  | definition decorators leaf =>
    rw [tokens_definition]
    exact .append (opens_cons (by simp [hwf.2.2])) (coarsens_decorators hwf.2.1) (.refl _)
  | choice header newline indent options dedent =>
    obtain ⟨hheader, hnewline, hindent, hoptions, hdedent⟩ := hwf
    rw [tokens_choice]
    exact coarsens_suite (coarsens_sealHeader .free (hP [] header (by simp [TokenFirst]) hheader hs.1) hnewline) hindent
      hdedent (opens_block options hoptions) (coarsens_block hP options hoptions hs.2)
  | compound decorators lead symbol clauses =>
    obtain ⟨hdecorators, hlead, -, hclauses⟩ := hwf
    have hopens := opens_of_tokenFirst ((tokenFirst_lead hlead).append (tokenFirst_clauses hclauses))
    rw [tokens_compound, List.append_assoc]
    refine .append hopens (coarsens_decorators hdecorators) ?_
    cases lead with
    | none => exact coarsens_clauses hP clauses hclauses hs .free [] (tokenFirst_lead hlead)
    | some lead => exact coarsens_clauses hP clauses hclauses hs .led [lead.key] (tokenFirst_lead hlead)

theorem coarsens_block (hP : ∀ before header, TokenFirst before → IsHeader header → P header →
      Header (before ++ Shape.tokensOfAll header)) (block : Block) (hwf : block.Wf)
    (hs : block.Headers P) : Coarsens Header block.tokens (blockTokens keep block) := by
  cases block with
  | nil => exact .refl []
  | cons statement rest =>
    have hinner := coarsens_inner hP statement hwf.1 hs.1
    have hstarts := hinner.tokenFirst (tokenFirst_statement hwf.1)
    exact .append (opens_block rest hwf.2) (hinner.trans (coarsens_sealClosed hstarts))
      (coarsens_block hP rest hwf.2 hs.2)

theorem coarsens_clauses (hP : ∀ before header, TokenFirst before → IsHeader header → P header →
      Header (before ++ Shape.tokensOfAll header)) (clauses : Clauses) (hwf : clauses.Wf)
    (hs : clauses.Headers P) (mode : Mode) (before : List Leaf) (hbefore : TokenFirst before) :
    Coarsens Header (before ++ clauses.tokens) (clauseTokens keep mode before clauses) := by
  cases clauses with
  | inline header body =>
    rw [tokens_inline, ← List.append_assoc]
    exact .append (opens_lines hwf.2.2) (.refl _) (coarsens_lines false hwf.2.2)
  | suite header newline indent body dedent =>
    obtain ⟨hheader, hnewline, hindent, hbody, hdedent⟩ := hwf
    rw [tokens_suite, ← List.append_assoc]
    exact coarsens_suite (coarsens_sealHeader mode (hP before header hbefore hheader hs.1) hnewline) hindent
      hdedent (opens_block body hbody) (coarsens_block hP body hbody hs.2)
  | inlineThen header body rest =>
    have hrest := opens_clauses hwf.2
    have hlines : Coarsens Header
        (before ++ Shape.tokensOfAll header ++ Shape.tokensOfAll (body.map Line.shape))
        (before ++ Shape.tokensOfAll header ++ lineTokens keep true body) :=
      .append (opens_lines hwf.1.2.2) (.refl _) (coarsens_lines true hwf.1.2.2)
    rw [tokens_inlineThen]
    have hstarts := hlines.tokenFirst (by
      rw [List.append_assoc]
      exact hbefore.append (tokenFirst_header hwf.1.1 _))
    refine .trans ?_ (coarsens_clauses hP rest hwf.2 hs.2 mode _ hstarts)
    simpa using Coarsens.append hrest hlines (.refl _)
  | suiteThen header newline indent body dedent rest =>
    obtain ⟨⟨hheader, hnewline, hindent, hbody, hdedent⟩, hrest⟩ := hwf
    have hsuite := coarsens_suite
      (@coarsens_sealHeader Header keep _ mode _ (hP before header hbefore hheader hs.1.1) hnewline) hindent
      hdedent (opens_block body hbody) (coarsens_block hP body hbody hs.1.2)
    have hmore := coarsens_clauses hP rest hrest hs.2
      (mode.next keep (before ++ Shape.tokensOfAll header)) [] (by simp [TokenFirst])
    rw [tokens_suiteThen]
    simpa [clauseTokens] using Coarsens.append (opens_clauses hrest) hsuite hmore

end

end Programs

section Sealing

variable {Header : List Leaf → Prop} {keep : LineSet}

theorem sealed?_eq_some {tokens : List Leaf} {leaf : Leaf} (h : sealed? keep tokens = some leaf) :
    clear keep tokens = true ∧ fold tokens = [leaf] := by
  unfold sealed? at h
  split at h
  · cases h
  · split at h
    · next hclear =>
      exact ⟨hclear, congrArg List.singleton (Option.some.inj h)⟩
    · cases h

theorem coarsens_sealed {tokens : List Leaf} {leaf : Leaf} (h : sealed? keep tokens = some leaf)
    (hstarts : TokenFirst tokens) (hends : Terminated tokens) : Coarsens Header tokens [leaf] :=
  (sealed?_eq_some h).2 ▸ .closed hstarts hends

theorem coarsens_sealLine (line : Line) (h : line.Wf) :
    Coarsens Header line.shape.tokens (sealLine keep line).shape.tokens := by
  cases line with
  | verbatim leaf => exact .refl _
  | simple parts newline =>
    rw [sealLine]
    split
    · next leaf hleaf =>
      refine coarsens_sealed hleaf (@tokenFirst_line (.simple parts newline) h) ?_
      rw [tokens_simple]
      exact terminated_concat _ h.2
    · exact .refl _

theorem coarsens_sealLines {lines : List Line} (h : ∀ line ∈ lines, line.Wf) :
    Coarsens Header (Shape.tokensOfAll (lines.map Line.shape))
      (Shape.tokensOfAll ((lines.map (sealLine keep)).map Line.shape)) := by
  induction lines with
  | nil => exact .refl []
  | cons line rest ih =>
    rw [List.forall_mem_cons] at h
    exact .append (opens_lines h.2) (coarsens_sealLine line h.1) (ih h.2)

theorem coarsens_sealInit {lines : List Line} (h : ∀ line ∈ lines, line.Wf) :
    Coarsens Header (Shape.tokensOfAll (lines.map Line.shape))
      (Shape.tokensOfAll ((sealInit keep lines).map Line.shape)) := by
  induction lines with
  | nil => exact .refl []
  | cons line rest ih =>
    rw [List.forall_mem_cons] at h
    cases rest with
    | nil => exact .refl _
    | cons next rest => exact .append (opens_lines h.2) (coarsens_sealLine line h.1) (ih h.2)

theorem coarsens_sealToSuite (clauses : Clauses) (h : clauses.Wf) :
    Coarsens Header clauses.tokens (sealToSuite keep clauses).tokens := by
  cases clauses with
  | inline header body => exact .refl _
  | suite header newline indent body dedent => exact .refl _
  | suiteThen header newline indent body dedent rest => exact .refl _
  | inlineThen header body rest =>
    rw [sealToSuite, tokens_inlineThen, tokens_inlineThen]
    refine .append (opens_clauses h.2) ?_ (coarsens_sealToSuite rest h.2)
    exact .append (opens_lines h.1.2.2) (.refl _) (coarsens_sealLines h.1.2.2)

theorem coarsens_sealClauses (clauses : Clauses) (h : clauses.Wf) :
    Coarsens Header clauses.tokens (sealClauses keep clauses).tokens := by
  cases clauses with
  | inline header body =>
    rw [sealClauses, tokens_inline, tokens_inline]
    exact .append (opens_lines h.2.2) (.refl _) (coarsens_sealInit h.2.2)
  | suite header newline indent body dedent => exact .refl _
  | inlineThen header body rest =>
    rw [sealClauses, tokens_inlineThen, tokens_inlineThen]
    refine .append (opens_clauses h.2) ?_ (coarsens_sealClauses rest h.2)
    exact .append (opens_lines h.1.2.2) (.refl _) (coarsens_sealLines h.1.2.2)
  | suiteThen header newline indent body dedent rest =>
    rw [sealClauses, tokens_suiteThen, tokens_suiteThen, ← List.append_assoc, ← List.append_assoc]
    exact .append (opens_clauses h.2) (.refl _) (coarsens_sealClauses rest h.2)

theorem terminated_suiteTokens {newline indent dedent : Leaf} {body : List Leaf}
    (hnewline : newline.kind = .newline) (hindent : indent.kind = .indent)
    (hdedent : dedent.kind = .dedent) (hbody : body = [] ∨ Terminated body) :
    Terminated (suiteTokens newline indent body dedent) := by
  rcases hbody with rfl | ⟨pre, last, post, rfl, hkind, hpost, -⟩
  · exact ⟨[], newline, [indent, dedent], rfl, hnewline, by simp [hindent, hdedent],
      by simp [hdedent]⟩
  · refine ⟨newline :: indent :: pre, last, post ++ [dedent], by simp [suiteTokens], hkind, ?_,
      by simp [hdedent]⟩
    intro x hx
    rcases List.mem_append.mp hx with hx | hx
    · exact hpost x hx
    · exact .inr (List.mem_singleton.mp hx ▸ hdedent)

theorem terminated_lines {lines : List Line} (hne : lines ≠ []) (hwf : ∀ line ∈ lines, line.Wf)
    (hfresh : ∀ x ∈ Shape.tokensOfAll (lines.map Line.shape), x.kind ≠ .verbatim) :
    Terminated (Shape.tokensOfAll (lines.map Line.shape)) := by
  obtain ⟨init, line, rfl⟩ := (List.eq_nil_or_concat lines).resolve_left hne
  rw [List.concat_eq_append, List.map_append, Shape.tokensOfAll_append] at hfresh ⊢
  refine Terminated.append_left ?_ _
  rw [List.map_singleton, Shape.tokensOfAll, Shape.tokensOfAll, List.append_nil] at hfresh ⊢
  have hline := hwf line (by simp)
  cases line with
  | verbatim leaf =>
    refine absurd hline (hfresh leaf (List.mem_append_right _ ?_))
    simp [Line.shape, Shape.tokens]
  | simple parts newline =>
    rw [tokens_simple]
    exact terminated_concat _ hline.2

mutual

theorem terminated_statement (s : Statement) (hwf : s.Wf)
    (hfresh : ∀ x ∈ s.tokens, x.kind ≠ .verbatim) : Terminated s.tokens := by
  cases s with
  | line line =>
    have hline := @terminated_lines [line] (by simp) (by simpa using (show line.Wf from hwf))
    simp only [List.map_singleton, Shape.tokensOfAll, List.append_nil] at hline
    exact hline hfresh
  | definition decorators leaf =>
    refine absurd hwf.2.2 (hfresh leaf ?_)
    simp [tokens_definition]
  | compound decorators lead symbol clauses =>
    rw [tokens_compound] at hfresh ⊢
    exact (terminated_clauses clauses hwf.2.2.2 fun x hx =>
      hfresh x (List.mem_append_right _ hx)).append_left _
  | choice header newline indent options dedent =>
    obtain ⟨-, hnewline, hindent, hoptions, hdedent⟩ := hwf
    rw [tokens_choice] at hfresh ⊢
    refine (terminated_suiteTokens hnewline hindent hdedent ?_).append_left _
    exact terminated_block options hoptions fun x hx =>
      hfresh x (List.mem_append_right _ ((sublist_suiteTokens ..).subset hx))

theorem terminated_block (block : Block) (hwf : block.Wf)
    (hfresh : ∀ x ∈ block.tokens, x.kind ≠ .verbatim) :
    block.tokens = [] ∨ Terminated block.tokens := by
  cases block with
  | nil => exact .inl rfl
  | cons statement rest =>
    rw [Block.tokens, Block.shapes, Shape.tokensOfAll] at hfresh ⊢
    right
    rcases terminated_block rest hwf.2 fun x hx => hfresh x (List.mem_append_right _ hx) with
      hnil | hrest
    · rw [Block.tokens] at hnil
      rw [hnil, List.append_nil]
      exact terminated_statement statement hwf.1 fun x hx => hfresh x (List.mem_append_left _ hx)
    · exact hrest.append_left _

theorem terminated_clauses (clauses : Clauses) (hwf : clauses.Wf)
    (hfresh : ∀ x ∈ clauses.tokens, x.kind ≠ .verbatim) : Terminated clauses.tokens := by
  cases clauses with
  | inline header body =>
    rw [tokens_inline] at hfresh ⊢
    exact (terminated_lines hwf.2.1 hwf.2.2 fun x hx =>
      hfresh x (List.mem_append_right _ hx)).append_left _
  | suite header newline indent body dedent =>
    obtain ⟨-, hnewline, hindent, hbody, hdedent⟩ := hwf
    rw [tokens_suite] at hfresh ⊢
    refine (terminated_suiteTokens hnewline hindent hdedent ?_).append_left _
    exact terminated_block body hbody fun x hx =>
      hfresh x (List.mem_append_right _ ((sublist_suiteTokens ..).subset hx))
  | inlineThen header body rest =>
    rw [tokens_inlineThen] at hfresh ⊢
    exact (terminated_clauses rest hwf.2 fun x hx =>
      hfresh x (List.mem_append_right _ hx)).append_left _
  | suiteThen header newline indent body dedent rest =>
    rw [tokens_suiteThen, ← List.append_assoc] at hfresh ⊢
    exact (terminated_clauses rest hwf.2 fun x hx =>
      hfresh x (List.mem_append_right _ hx)).append_left _

end

theorem terminated_sealToSuite (clauses : Clauses) (hwf : clauses.Wf)
    (hfresh : ∀ x ∈ clauses.tokens, x.kind ≠ .verbatim) :
    Terminated (sealToSuite keep clauses).tokens := by
  cases clauses with
  | inline header body => exact terminated_clauses _ hwf hfresh
  | suite header newline indent body dedent => exact terminated_clauses _ hwf hfresh
  | suiteThen header newline indent body dedent rest => exact terminated_clauses _ hwf hfresh
  | inlineThen header body rest =>
    rw [tokens_inlineThen] at hfresh
    rw [sealToSuite, tokens_inlineThen]
    exact (terminated_sealToSuite rest hwf.2 fun x hx =>
      hfresh x (List.mem_append_right _ hx)).append_left _

theorem terminated_sealInit {lines : List Line} (hne : lines ≠ []) (hwf : ∀ line ∈ lines, line.Wf)
    (hfresh : ∀ x ∈ Shape.tokensOfAll (lines.map Line.shape), x.kind ≠ .verbatim) :
    Terminated (Shape.tokensOfAll ((sealInit keep lines).map Line.shape)) := by
  induction lines with
  | nil => exact absurd rfl hne
  | cons line rest ih =>
    cases rest with
    | nil => exact terminated_lines hne hwf hfresh
    | cons next rest =>
      rw [List.forall_mem_cons] at hwf
      exact (ih (by simp) hwf.2 fun x hx => hfresh x (List.mem_append_right _ hx)).append_left _

theorem terminated_sealClauses (clauses : Clauses) (hwf : clauses.Wf)
    (hfresh : ∀ x ∈ clauses.tokens, x.kind ≠ .verbatim) :
    Terminated (sealClauses keep clauses).tokens := by
  cases clauses with
  | inline header body =>
    rw [tokens_inline] at hfresh
    rw [sealClauses, tokens_inline]
    exact (terminated_sealInit hwf.2.1 hwf.2.2 fun x hx =>
      hfresh x (List.mem_append_right _ hx)).append_left _
  | suite header newline indent body dedent => exact terminated_clauses _ hwf hfresh
  | inlineThen header body rest =>
    rw [tokens_inlineThen] at hfresh
    rw [sealClauses, tokens_inlineThen]
    exact (terminated_sealClauses rest hwf.2 fun x hx =>
      hfresh x (List.mem_append_right _ hx)).append_left _
  | suiteThen header newline indent body dedent rest =>
    rw [tokens_suiteThen, ← List.append_assoc] at hfresh
    rw [sealClauses, tokens_suiteThen, ← List.append_assoc]
    exact (terminated_sealClauses rest hwf.2 fun x hx =>
      hfresh x (List.mem_append_right _ hx)).append_left _

theorem tokens_standIn (decorators : List Decorator) (leaf : Leaf) :
    (standIn decorators leaf).tokens = Shape.tokensOfAll (decoratorsShape decorators) ++ [leaf] := by
  rw [Statement.tokens, shape_standIn, tokens_decorate, Shape.tokens]

mutual

theorem coarsens_sealStatement (s : Statement) (hwf : s.Wf)
    (hfresh : ∀ x ∈ s.tokens, x.kind ≠ .verbatim) :
    Coarsens Header s.tokens (sealStatement keep s).tokens := by
  cases s with
  | line line => exact coarsens_sealLine line hwf
  | definition decorators leaf => exact .refl _
  | choice header newline indent options dedent =>
    obtain ⟨-, -, hindent, hoptions, hdedent⟩ := hwf
    rw [tokens_choice] at hfresh
    rw [sealStatement, tokens_choice, tokens_choice]
    refine coarsens_suite (.refl _) hindent hdedent (opens_block options hoptions) ?_
    exact coarsens_sealBlock options hoptions fun x hx =>
      hfresh x (List.mem_append_right _ ((sublist_suiteTokens ..).subset hx))
  | compound decorators lead symbol clauses =>
    obtain ⟨hdecorators, hlead, hsymbol, hclauses⟩ := hwf
    have hcompound := @tokenFirst_statement (.compound decorators lead symbol clauses)
      ⟨hdecorators, hlead, hsymbol, hclauses⟩
    rw [tokens_compound, List.append_assoc] at hfresh hcompound ⊢
    have hstarts := (tokenFirst_lead hlead).append (tokenFirst_clauses hclauses)
    have hopens := opens_of_tokenFirst hstarts
    have hrest : ∀ x ∈ clauses.tokens, x.kind ≠ .verbatim := fun x hx =>
      hfresh x (List.mem_append_right _ (List.mem_append_right _ hx))
    have hwhole : Coarsens Header
        (Shape.tokensOfAll (decoratorsShape decorators) ++ (lead.toList.map Lead.key ++ clauses.tokens))
        (Statement.compound decorators lead symbol (sealClauses keep clauses)).tokens := by
      rw [tokens_compound, List.append_assoc]
      exact .append hopens (.refl _) (.append (opens_clauses hclauses) (.refl _)
        (coarsens_sealClauses clauses hclauses))
    rw [sealStatement]
    split
    · next leaf hleaf =>
      unfold sealedBlock? at hleaf
      split at hleaf
      · rw [tokens_standIn]
        have hled : Coarsens Header (lead.toList.map Lead.key ++ clauses.tokens)
            (lead.toList.map Lead.key ++ (sealToSuite keep clauses).tokens) :=
          .append (opens_clauses hclauses) (.refl _) (coarsens_sealToSuite clauses hclauses)
        exact .append hopens (.refl _) (hled.trans (coarsens_sealed hleaf (hled.tokenFirst hstarts)
          ((terminated_sealToSuite clauses hclauses hrest).append_left _)))
      · cases hleaf
    · split
      · next leaf hleaf =>
        unfold sealedWhole? at hleaf
        split at hleaf
        · refine hwhole.trans (coarsens_sealed hleaf (hwhole.tokenFirst hcompound) ?_)
          rw [tokens_compound]
          exact (terminated_sealClauses clauses hclauses hrest).append_left _
        · cases hleaf
      · exact hwhole

theorem coarsens_sealBlock (block : Block) (hwf : block.Wf)
    (hfresh : ∀ x ∈ block.tokens, x.kind ≠ .verbatim) :
    Coarsens Header block.tokens (sealBlock keep block).tokens := by
  cases block with
  | nil => exact .refl []
  | cons statement rest =>
    rw [Block.tokens, Block.shapes, Shape.tokensOfAll] at hfresh
    exact .append (opens_block rest hwf.2)
      (coarsens_sealStatement statement hwf.1 fun x hx => hfresh x (List.mem_append_left _ hx))
      (coarsens_sealBlock rest hwf.2 fun x hx => hfresh x (List.mem_append_right _ hx))

end

theorem sealClauses_headers {P : List Shape → Prop} (clauses : Clauses) (h : clauses.Headers P) :
    (sealClauses keep clauses).Headers P := by
  cases clauses with
  | inline header body => exact h
  | suite header newline indent body dedent => exact h
  | inlineThen header body rest => exact ⟨h.1, sealClauses_headers rest h.2⟩
  | suiteThen header newline indent body dedent rest => exact ⟨h.1, sealClauses_headers rest h.2⟩

mutual

theorem sealStatement_headers {P : List Shape → Prop} (s : Statement) (h : s.Headers P) :
    (sealStatement keep s).Headers P := by
  cases s with
  | line line => trivial
  | definition decorators leaf => trivial
  | choice header newline indent options dedent => exact ⟨h.1, sealBlock_headers options h.2⟩
  | compound decorators lead symbol clauses =>
    rw [sealStatement]
    split
    · cases decorators <;> trivial
    · split
      · trivial
      · exact sealClauses_headers clauses h

theorem sealBlock_headers {P : List Shape → Prop} (block : Block) (h : block.Headers P) :
    (sealBlock keep block).Headers P := by
  cases block with
  | nil => trivial
  | cons statement rest =>
    exact ⟨sealStatement_headers statement h.1, sealBlock_headers rest h.2⟩

end

end Sealing

end Collapse

end LineScope
