import LineScope.Proofs.Collapse.Folding
import LineScope.Proofs.Collapse.LogicalLine
import LineScope.Proofs.Tree.Places
import Mathlib.Data.List.DropRight

/-!
# Newlines that are dealt with

What the place of a newline is like once the line pass has come past it: the region it decides about
has a kept line, or it is a header that is verbatim already, or one that is gone together with its
`async`. A place of this kind stays one when something after it is folded.
-/
namespace LineScope

namespace Branch

variable {b b' : Branch}

theorem isSuite_congr (h : b.shape = b'.shape) : b.isSuite = b'.isSuite := by
  cases b <;> cases b' <;> simp_all [shape, isSuite]

theorem isAsync_congr (h : b.shape = b'.shape) : b.isAsync = b'.isAsync := by
  cases b <;> cases b' <;> simp_all [shape, isAsync]

theorem exists_async (h : b.isAsync = true) : ∃ n token, b = .leaf n token ∧ token.kind = .async := by
  cases b with
  | leaf n token => exact ⟨n, token, rfl, by simpa [isAsync] using h⟩
  | node id symbol parts => cases h

def isDecorator : Branch → Bool
  | .leaf _ _ => false
  | .node _ symbol _ => symbol = .decorator

theorem isDecorator_congr (h : b.shape = b'.shape) : b.isDecorator = b'.isDecorator := by
  cases b <;> cases b' <;> simp_all [shape, isDecorator]

end Branch

namespace Collapse

open LineScope.Tree

/-- What stands in front of a suite ends with the header of the suite. -/
structure HeaderOf (before done header : List Branch) : Prop where
  split : before = done ++ header
  done_last : ∀ b ∈ done.getLast?, b.isSuite = true
  header_suite : ∀ b ∈ header, b.isSuite = false

def leadIn : Context → List Branch
  | [] => []
  | f :: _ => leadOf f.before

def widen : Context × Branch → Context × Branch
  | ([], top) => ([], top)
  | (f :: above, top) =>
    if top.isDecorator = true ∧ f.symbol = .decorators then
      (above, .node f.id f.symbol (f.before ++ [top] ++ f.after))
    else (f :: above, top)

def closedRegion (c : Context) (x : Branch) : Context × Branch := widen (closing c x)

def Kept (keep : LineSet) (run : List Branch) : Prop :=
  clear keep (Branch.tokensOfAll run) = false ∨
    ∃ n leaf, run = [.leaf n leaf] ∧ leaf.kind = .verbatim

/-- The newline of a simple statement or of a decorator, which closes what has a kept line. -/
structure LineSettled (keep : LineSet) (x : Branch) (c : Context) : Prop where
  form : ∃ f ∈ c.head?, f.symbol = .simpleStmt ∨ f.symbol = .decorator
  region : (closedRegion c x).1 = [] ∨ clear keep (closedRegion c x).2.shape.tokens = false

/-- The newline behind the header of a match or of a suite. A header ends with a token of the program
or is verbatim as a whole, and only one behind an `async` can be gone. -/
inductive HeaderSettled (keep : LineSet) (led : Prop) : Context → Prop
  | choice {s : Frame} {above : Context} (form : s.symbol = .matchStmt) (header : s.before ≠ [])
      (kept : Kept keep s.before) : HeaderSettled keep led (s :: above)
  | suite {s g : Frame} {above : Context} {done header : List Branch} (form : s.symbol = .suite)
      (opens : s.before = []) (header_of : HeaderOf g.before done header) (nonempty : header ≠ [])
      (kept : Kept keep (leadIn above ++ header))
      (last : (∀ y ∈ (Branch.tokensOfAll header).getLast?, y.kind ≠ .verbatim) ∨
        ∃ n leaf, leadIn above ++ header = [.leaf n leaf]) : HeaderSettled keep led (s :: g :: above)
  | bare {s g : Frame} {above : Context} (form : s.symbol = .suite) (opens : s.before = [])
      (done_last : ∀ b ∈ g.before.getLast?, b.isSuite = true) (lead : leadIn above = [])
      (behind : led) : HeaderSettled keep led (s :: g :: above)

section Headers

variable {keep : LineSet} {led : Prop} {c c' above above' : Context} {before before' done header run
  run' : List Branch}

theorem exists_headerOf (before : List Branch) : ∃ done header, HeaderOf before done header := by
  refine ⟨before.rdropWhile fun b => !b.isSuite, before.rtakeWhile fun b => !b.isSuite,
    List.rdropWhile_append_rtakeWhile.symm, fun b hb => ?_, fun b hb => ?_⟩
  · have hne : before.rdropWhile (fun b => !b.isSuite) ≠ [] :=
      List.ne_nil_of_mem (List.mem_of_getLast? hb)
    have hlast := List.rdropWhile_last_not (fun b : Branch => !b.isSuite) before hne
    rw [List.getLast?_eq_some_getLast hne, Option.mem_some_iff] at hb
    simpa [hb] using hlast
  · simpa using List.mem_rtakeWhile_imp hb

/-- A part that is no suite ends the header right before a suite. -/
theorem HeaderOf.getLast? (h : HeaderOf before done header) {b : Branch}
    (hb : before.getLast? = some b) (hsuite : b.isSuite = false) : header.getLast? = some b := by
  rw [h.split, List.getLast?_append] at hb
  cases hlast : header.getLast? with
  | some z => rwa [hlast] at hb
  | none =>
    rw [hlast] at hb
    rw [h.done_last b hb] at hsuite
    cases hsuite

theorem leadOf_congr (h : before.map Branch.shape = before'.map Branch.shape) :
    (leadOf before).map Branch.shape = (leadOf before').map Branch.shape := by
  have hlast : before.getLast?.map Branch.shape = before'.getLast?.map Branch.shape := by
    rw [← List.getLast?_map, h, List.getLast?_map]
  unfold leadOf
  cases hb : before.getLast? <;> cases hb' : before'.getLast? <;> simp_all [Option.filter]
  rw [Branch.isAsync_congr hlast]
  split <;> simp_all

theorem leadIn_congr (h : List.Forall₂ Frame.Alike above above') :
    (leadIn above).map Branch.shape = (leadIn above').map Branch.shape := by
  cases h with
  | nil => rfl
  | cons hf _ => exact leadOf_congr hf.before

theorem suite_last_congr (h : before.map Branch.shape = before'.map Branch.shape)
    (hlast : ∀ b ∈ before.getLast?, b.isSuite = true) : ∀ b ∈ before'.getLast?, b.isSuite = true := by
  intro b hb
  have hshape : (before.map Branch.shape).getLast? = some b.shape := by
    rw [h, List.getLast?_map, hb, Option.map_some]
  rw [List.getLast?_map, Option.map_eq_some_iff] at hshape
  obtain ⟨a, ha, hab⟩ := hshape
  rw [← Branch.isSuite_congr hab]
  exact hlast a ha

theorem HeaderOf.congr (h : HeaderOf before done header)
    (hshape : before.map Branch.shape = before'.map Branch.shape) :
    ∃ done' header', HeaderOf before' done' header' ∧
      header.map Branch.shape = header'.map Branch.shape := by
  rw [h.split, List.map_append] at hshape
  obtain ⟨done', header', rfl, hdone, hheader⟩ := List.map_eq_append_iff.mp hshape.symm
  refine ⟨done', header', ⟨rfl, suite_last_congr hdone.symm h.done_last, fun b hb => ?_⟩,
    hheader.symm⟩
  obtain ⟨a, ha, hab⟩ := List.mem_map.mp (hheader ▸ List.mem_map_of_mem hb)
  rw [← Branch.isSuite_congr hab]
  exact h.header_suite a ha

theorem tokensOfAll_congr (h : run.map Branch.shape = run'.map Branch.shape) :
    Branch.tokensOfAll run = Branch.tokensOfAll run' := by
  rw [← Branch.tokensOfAll_shapes, h, Branch.tokensOfAll_shapes]

theorem Kept.congr (h : Kept keep run) (hshape : run.map Branch.shape = run'.map Branch.shape) :
    Kept keep run' := by
  rcases h with h | ⟨n, leaf, rfl, hkind⟩
  · exact .inl (tokensOfAll_congr hshape ▸ h)
  · obtain ⟨b, rfl, hb⟩ := List.map_eq_singleton_iff.mp hshape.symm
    obtain ⟨m, rfl⟩ := Branch.exists_leaf hb
    exact .inr ⟨m, leaf, rfl, hkind⟩

theorem alike_reafter (inner : Context) (f : Frame) (after : List Branch) (above : Context) :
    List.Forall₂ Frame.Alike (inner ++ f :: above) (inner ++ { f with after := after } :: above) := by
  induction inner with
  | nil => exact .cons ⟨rfl, rfl⟩ (List.forall₂_same.mpr fun g _ => .refl g)
  | cons g inner ih => exact .cons (.refl g) ih

/-- What stands behind a gap does not matter to the headers in front of it. -/
theorem HeaderSettled.congr (h : HeaderSettled keep led c) (hc : List.Forall₂ Frame.Alike c c') :
    HeaderSettled keep led c' := by
  cases h with
  | @choice s above form header kept =>
    obtain ⟨s', above', hs, -, rfl⟩ := List.forall₂_cons_left_iff.mp hc
    exact .choice (hs.symbol ▸ form)
      (fun hnil => header (by simpa [hnil] using hs.before)) (kept.congr hs.before)
  | @suite s g above done header form opens header_of nonempty kept last =>
    obtain ⟨s', rest, hs, hrest, rfl⟩ := List.forall₂_cons_left_iff.mp hc
    obtain ⟨g', above', hg, habove, rfl⟩ := List.forall₂_cons_left_iff.mp hrest
    obtain ⟨done', header', hheader, hshape⟩ := header_of.congr hg.before
    have hall : (leadIn above ++ header).map Branch.shape =
        (leadIn above' ++ header').map Branch.shape := by
      rw [List.map_append, List.map_append, leadIn_congr habove, hshape]
    refine .suite (hs.symbol ▸ form) (by simpa [opens] using hs.before) hheader ?_
      (kept.congr hall) ?_
    · rintro rfl
      exact nonempty (by simpa using hshape)
    · rw [← tokensOfAll_congr hshape]
      refine last.imp_right ?_
      rintro ⟨n, leaf, hsingle⟩
      rw [hsingle, List.map_singleton, eq_comm] at hall
      obtain ⟨b, hb, hleaf⟩ := List.map_eq_singleton_iff.mp hall
      obtain ⟨m, rfl⟩ := Branch.exists_leaf hleaf
      exact ⟨m, leaf, hb⟩
  | @bare s g above form opens done_last lead behind =>
    obtain ⟨s', rest, hs, hrest, rfl⟩ := List.forall₂_cons_left_iff.mp hc
    obtain ⟨g', above', hg, habove, rfl⟩ := List.forall₂_cons_left_iff.mp hrest
    have hlead := leadIn_congr habove
    exact .bare (hs.symbol ▸ form) (by simpa [opens] using hs.before)
      (suite_last_congr hg.before done_last) (by simpa [lead] using hlead) behind

end Headers

section Lines

variable {keep : LineSet} {t : Tree} {c c' inner above : Context} {f : Frame} {x x' : Branch}
  {others : List Branch}

theorem fill_widen (place : Context × Branch) :
    (widen place).1.fill [(widen place).2] = place.1.fill [place.2] := by
  match place with
  | ([], top) => rfl
  | (f :: above, top) =>
    rw [widen]
    split <;> rfl

theorem fill_closedRegion (c : Context) (x : Branch) :
    (closedRegion c x).1.fill [(closedRegion c x).2] = c.fill [x] :=
  (fill_widen _).trans (fill_closing c x)

theorem exists_closing (c : Context) (x : Branch) :
    ∃ inner, c = inner ++ (closing c x).1 ∧ inner.fill [x] = [(closing c x).2] := by
  induction c generalizing x with
  | nil => exact ⟨[], rfl, rfl⟩
  | cons f above ih =>
    rw [closing]
    split
    · next hafter =>
      obtain ⟨inner, habove, hfill⟩ := ih (.node f.id f.symbol (f.before ++ [x]))
      refine ⟨f :: inner, by rw [List.cons_append, ← habove], ?_⟩
      rw [Context.fill, List.isEmpty_iff.mp hafter, List.append_nil, hfill]
    · exact ⟨[], rfl, rfl⟩

theorem exists_closedRegion (c : Context) (x : Branch) :
    ∃ inner, c = inner ++ (closedRegion c x).1 ∧ inner.fill [x] = [(closedRegion c x).2] := by
  obtain ⟨inner, hc, hfill⟩ := exists_closing c x
  unfold closedRegion
  generalize closing c x = place at *
  match place with
  | ([], top) => exact ⟨inner, hc, hfill⟩
  | (f :: above, top) =>
    rw [widen]
    split
    · refine ⟨inner ++ [f], by rw [hc, List.append_assoc]; rfl, ?_⟩
      rw [Context.fill_append, hfill]
      rfl
    · exact ⟨inner, hc, hfill⟩

theorem isSymbol_decorator {parent : Option NodeId} {b : Branch} (h : t.Grows parent b) :
    t.isSymbol b.id .decorator = b.isDecorator := by
  cases b with
  | leaf id token => simp [isSymbol, Branch.id, h.symbol?_leaf, Branch.isDecorator]
  | node id symbol parts =>
    simp [isSymbol, Branch.id, h.symbol?_node, Branch.isDecorator, beq_eq_decide]

theorem closedBy_eq (h : t.Holds (c.fill [x] ++ others)) :
    closedBy t x.id = (closedRegion c x).2.id := by
  have htop := furthestEndingWith_eq h
  rw [← fill_closing] at h
  have hparent := h.parent? (List.mem_singleton_self (closing c x).2)
  have hdecorator := isSymbol_decorator (h.run_grows _ (List.mem_singleton_self _))
  simp only [closedBy, htop, hparent, hdecorator, closedRegion]
  generalize closing c x = place at *
  obtain ⟨_ | ⟨f, above⟩, top⟩ := place
  · rfl
  · have hsymbol : t.symbol? f.id = some f.symbol := h.symbol?_parent
    simp only [Context.parent, List.head?_cons, Option.map_some, isSymbol, hsymbol, widen,
      Bool.and_eq_true, beq_iff_eq, Option.some.injEq]
    split <;> rfl

theorem closing_within (inner above : Context) (x : Branch) (hafter : f.after ≠ []) :
    closing (inner ++ f :: above) x = ((closing inner x).1 ++ f :: above, (closing inner x).2) := by
  induction inner generalizing x with
  | nil => exact closing_of_ne_nil x hafter
  | cons g inner ih =>
    rw [List.cons_append, closing, closing]
    split
    · exact ih _
    · rfl

/-- What comes behind the gap may change as long as it does not go. -/
theorem LineSettled.reafter {after' : List Branch} (h : LineSettled keep x (inner ++ f :: above))
    (hafter : f.after ≠ []) (hafter' : after' ≠ [])
    (hclear : ∀ b : Branch, inner.fill [x] = [b] →
      clear keep (Branch.node f.id f.symbol (f.before ++ [b] ++ f.after)).shape.tokens = false →
      clear keep (Branch.node f.id f.symbol (f.before ++ [b] ++ after')).shape.tokens = false) :
    LineSettled keep x (inner ++ { f with after := after' } :: above) := by
  obtain ⟨hform, hregion⟩ := h
  refine ⟨?_, ?_⟩
  · cases inner with
    | nil => exact ⟨_, rfl, by simpa using hform⟩
    | cons g inner => exact hform
  · have hclosing' := @closing_within { f with after := after' } inner above x hafter'
    rw [closedRegion, closing_within inner above x hafter] at hregion
    rw [closedRegion, hclosing']
    cases hinner : (closing inner x).1 with
    | cons g rest =>
      rw [hinner, List.cons_append, widen] at hregion
      rw [List.cons_append, widen]
      split at hregion
      · next hgroup =>
        rw [if_pos hgroup]
        exact .inr (hregion.resolve_left (by simp))
      · next hgroup =>
        rw [if_neg hgroup]
        exact .inr (hregion.resolve_left (by simp))
    | nil =>
      have hfill := fill_closing inner x
      rw [hinner, Context.fill] at hfill
      rw [hinner, List.nil_append, widen] at hregion
      rw [List.nil_append, widen]
      split at hregion
      · next hgroup =>
        rw [if_pos hgroup]
        exact hregion.imp_right (hclear _ hfill.symm)
      · next hgroup =>
        rw [if_neg hgroup]
        exact .inr (hregion.resolve_left (by simp))

theorem closing_congr (hc : List.Forall₂ Frame.SameShape c c') (hx : x.shape = x'.shape) :
    List.Forall₂ Frame.SameShape (closing c x).1 (closing c' x').1 ∧
      (closing c x).2.shape = (closing c' x').2.shape := by
  induction hc generalizing x x' with
  | nil => exact ⟨.nil, hx⟩
  | @cons f f' above above' hf habove ih =>
    have hafter : f.after.isEmpty = f'.after.isEmpty := by
      rw [← List.isEmpty_map (f := Branch.shape), hf.after, List.isEmpty_map]
    rw [closing, closing, hafter]
    split
    · refine ih ?_
      simp [Branch.shape, hf.symbol, hf.before, hx]
    · exact ⟨.cons hf habove, hx⟩

/-- Trees of the same shape have the same lines settled. -/
theorem LineSettled.congr (h : LineSettled keep x c) (hc : List.Forall₂ Frame.SameShape c c')
    (hx : x.shape = x'.shape) : LineSettled keep x' c' := by
  obtain ⟨⟨f, hf, hform⟩, hregion⟩ := h
  obtain ⟨hclosing, htop⟩ := closing_congr hc hx
  refine ⟨?_, ?_⟩
  · cases hc with
    | nil => cases hf
    | @cons g g' above above' hg habove =>
      obtain rfl := Option.some.inj hf
      exact ⟨g', rfl, hg.symbol ▸ hform⟩
  · unfold closedRegion at hregion ⊢
    generalize closing c x = place at *
    generalize closing c' x' = place' at *
    match place, place', hclosing with
    | ([], top), ([], top'), _ => exact .inl rfl
    | (g :: above, top), (g' :: above', top'), hclosing =>
      obtain ⟨hg, habove⟩ := List.forall₂_cons.mp hclosing
      rw [widen] at hregion ⊢
      rw [← Branch.isDecorator_congr htop, ← hg.symbol]
      split at hregion
      · next hgroup =>
        rw [if_pos hgroup]
        refine hregion.imp (fun hnil => ?_) fun hclear => ?_
        · obtain rfl : above = [] := hnil
          exact List.forall₂_nil_left_iff.mp habove
        · simpa [Branch.shape, hg.symbol, hg.before, hg.after, htop] using hclear
      · next hgroup =>
        rw [if_neg hgroup]
        exact hregion.imp (fun hnil => absurd hnil (by simp)) fun hclear => htop ▸ hclear

end Lines

section Steps

variable {keep : LineSet} {t : Tree} {c above : Context} {s g : Frame} {x : Branch}
  {done header others : List Branch}

/-- The step at the newline of a simple statement or of a decorator. -/
theorem logicalLine_line (h : t.Holds (c.fill [x] ++ others)) (hrooted : c.Rooted)
    (hform : ∃ f ∈ c.head?, f.symbol = .simpleStmt ∨ f.symbol = .decorator)
    (hfull : ∀ b ∈ c.fill [x], b.shape.Full) :
    logicalLine keep t x.id = if clear keep (closedRegion c x).2.shape.tokens then
      collapseNode t (closedRegion c x).2.id else ⟨t, .ok false⟩ := by
  obtain ⟨f, hf, hform⟩ := hform
  obtain ⟨above, rfl⟩ : ∃ above, c = f :: above := by
    cases c with
    | nil => cases hf
    | cons g above => exact ⟨above, by rw [Option.some.inj hf]⟩
  have hne : f.symbol ≠ .matchStmt ∧ f.symbol ≠ .suite := by
    rcases hform with hform | hform <;> rw [hform] <;> exact ⟨by decide, by decide⟩
  rw [logicalLine_closedBy h hrooted hne.1 hne.2, closedBy_eq h]
  rw [← fill_closedRegion] at h hfull
  rw [misses_node keep h (Context.full_of_fill hfull _ (List.mem_singleton_self _)),
    Branch.tokens_shape]

/-- A region without a place in another node, or with a kept line, stays. -/
theorem region_stays {place : Context × Branch} (h : t.Holds (place.1.fill [place.2] ++ others))
    (hfull : place.2.shape.Full)
    (hregion : place.1 = [] ∨ clear keep place.2.shape.tokens = false) :
    (if misses t keep [place.2.id] then collapseNode t place.2.id else ⟨t, .ok false⟩) =
      ⟨t, .ok false⟩ := by
  rcases hregion with hnil | hclear
  · rw [hnil] at h
    rw [collapseNode_top h, ite_self]
  · rw [misses_node keep h hfull, ← Branch.tokens_shape, hclear]
    rfl

theorem LineSettled.stays (hsettled : LineSettled keep x c) (h : t.Holds (c.fill [x] ++ others))
    (hrooted : c.Rooted) (hfull : ∀ b ∈ c.fill [x], b.shape.Full) :
    logicalLine keep t x.id = ⟨t, .ok false⟩ := by
  rw [logicalLine_line h hrooted hsettled.form hfull]
  rw [← fill_closedRegion] at h hfull
  have htop := Context.full_of_fill hfull _ (List.mem_singleton_self _)
  rw [Branch.tokens_shape, ← misses_node keep h htop]
  exact region_stays h htop hsettled.region

/-- The newline of a suite decides about what is in front of the suite. -/
theorem logicalLine_opens (h : t.Holds (Context.fill (s :: above) [x] ++ others))
    (hrooted : Context.Rooted (s :: above)) (hs : s.symbol = .suite) :
    logicalLine keep t x.id = collapseHeader keep t (suiteHeader t s.id x.id) := by
  have hattached : t.isAttached x.id = true :=
    h.isAttached hrooted (by simp [Branch.idsOfAll, Branch.id_mem_ids])
  have hparent : t.parent? x.id = some s.id := h.parent? (List.mem_singleton_self x)
  have hsymbol : t.symbol? s.id = some .suite := hs ▸ h.symbol?_parent
  simp only [logicalLine, hattached, hparent, hsymbol, Bool.not_true, Bool.false_eq_true, if_false]

theorem HeaderOf.headerBefore (h : t.Holds (Context.fill (g :: above) [x] ++ others))
    (hheader : HeaderOf g.before done header) :
    Collapse.headerBefore t (g.before.map Branch.id) = header.map Branch.id := by
  have hgrows : ∀ b ∈ done ++ header, t.Grows (some g.id) b := by
    intro b hb
    rw [← hheader.split] at hb
    exact (holds_fill.mp h).2.1.2.1.2.1 b (List.mem_append_left _ hb)
  rw [hheader.split]
  exact headerBefore_eq hgrows hheader.done_last hheader.header_suite

/-- The header of a suite, with the `async` in front of the node of the suite. -/
theorem suiteHeader_led (h : t.Holds (Context.fill (g :: above) [x] ++ others))
    (hheader : HeaderOf g.before done header) (hne : header ≠ []) (newline : NodeId) :
    suiteHeader t x.id newline = .ok ((leadIn above ++ header).map Branch.id) := by
  cases above with
  | cons f up =>
    exact suiteHeader_eq h hheader.split hheader.done_last hheader.header_suite hne newline
  | nil =>
    have hparent : t.parent? x.id = some g.id := h.parent? (List.mem_singleton_self x)
    have hroot : t.parent? g.id = none :=
      (h.grows _ (List.mem_append_left _ (List.mem_singleton_self _))).parent?
    have htop : t.prevSibling? g.id = none := by simp [Tree.prevSibling?, Tree.siblings?, hroot]
    obtain ⟨head, rest, rfl⟩ := List.exists_cons_of_ne_nil hne
    simp only [suiteHeader, hparent, h.siblings?, hheader.headerBefore h, htop, List.map_cons]
    rfl

theorem leadIn_async {f : Frame} {up : Context} {pre : List Branch} {key : NodeId} {token : Leaf}
    (hbefore : f.before = pre ++ [.leaf key token]) (hkind : token.kind = .async) :
    leadIn (f :: up) = [.leaf key token] := by
  rw [leadIn, hbefore, leadOf_concat hkind]

/-- The `async` in front of a node is the last part before it. -/
theorem leadIn_cases (above : Context) :
    leadIn above = [] ∨
      ∃ (f : Frame) (up : Context) (pre : List Branch) (key : NodeId) (token : Leaf),
      above = f :: up ∧ f.before = pre ++ [.leaf key token] ∧ token.kind = .async := by
  cases above with
  | nil => exact .inl rfl
  | cons f up =>
    rw [leadIn]
    cases hlast : f.before.getLast? with
    | none => simp [leadOf, hlast]
    | some b =>
      cases hasync : b.isAsync with
      | false => simp [leadOf, hlast, Option.filter, hasync]
      | true =>
        obtain ⟨key, token, rfl, hkind⟩ := Branch.exists_async hasync
        obtain ⟨pre, hpre⟩ := List.getLast?_eq_some_iff.mp hlast
        exact .inr ⟨f, up, pre, key, token, rfl, hpre, hkind⟩

theorem logicalLine_bare (h : t.Holds (Context.fill (s :: g :: above) [x] ++ others))
    (hrooted : Context.Rooted (s :: g :: above)) (hs : s.symbol = .suite)
    (hdone : ∀ b ∈ g.before.getLast?, b.isSuite = true) :
    logicalLine keep t x.id = ⟨t, .error (.emptyGroup x.id .suite)⟩ := by
  have hsuite : t.Holds (Context.fill (g :: above)
    [.node s.id s.symbol (s.before ++ [x] ++ s.after)] ++ others) := h
  have hparent : t.parent? s.id = some g.id := hsuite.parent? (List.mem_singleton_self _)
  have hsiblings := hsuite.siblings?
  have hheader : HeaderOf g.before g.before [] := ⟨by rw [List.append_nil], hdone, by simp⟩
  rw [logicalLine_opens h hrooted hs]
  simp only [Branch.id] at hsiblings
  simp only [suiteHeader, hparent, hsiblings, hheader.headerBefore hsuite, List.map_nil,
    collapseHeader]

end Steps

end Collapse

end LineScope
