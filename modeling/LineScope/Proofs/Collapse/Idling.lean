import LineScope.Proofs.Collapse.Settling

/-!
# The statement pass has nothing left to do

Once every newline is dealt with, a simple statement has a kept line in all that ends with it. A
suite without verbatim leaves holds such a statement and cannot end with it, so the lines of that
statement are within the suite and within the block that the suite belongs to.
-/
namespace LineScope

theorem Context.tokens_of_fill {c : Context} {x b : Branch} (h : c.fill [x] = [b]) :
    b.shape.tokens = c.left.map Prod.snd ++ x.shape.tokens ++ c.right.map Prod.snd := by
  rw [b.tokens_shape, leaves_of_fill h, x.tokens_shape]
  simp [Branch.leavesOfAll]

/-- A branch without verbatim leaves that is lively holds a simple statement. -/
theorem Branch.Lively.exists_statement {b : Branch} (h : b.Lively)
    (hfresh : ∀ x ∈ b.shape.tokens, x.kind ≠ .verbatim) :
    ∃ (inner : Context) (id : NodeId) (parts : List Branch),
      inner.fill [.node id .simpleStmt parts] = [b] := by
  induction h with
  | @verbatim n token kind => exact absurd kind (hfresh token (by simp))
  | @line id parts => exact ⟨[], id, parts, rfl⟩
  | @part id symbol parts b mem lively ih =>
    obtain ⟨pre, post, rfl⟩ := List.append_of_mem mem
    have hplace : Context.fill [⟨id, symbol, pre, post⟩] [b] = [.node id symbol (pre ++ b :: post)] := by
      simp [Context.fill]
    obtain ⟨inner, id', parts', hfill⟩ := ih fun x hx =>
      hfresh x (Context.tokens_of_fill hplace ▸ by simp [hx])
    exact ⟨inner ++ [⟨id, symbol, pre, post⟩], id', parts', by
      rw [Context.fill_append, hfill, hplace]⟩

namespace Collapse

open LineScope.Tree

section Regions

variable {p : NodeId → Prop} {keep : LineSet} {c : Context} {x : Branch}

theorem closing_not_decorator (h : ∀ b ∈ c.fill [x], b.Sound p)
    (hblock : x.shape.role.isBlock = true) (hx : x.isDecorator = false) :
    (closing c x).2.isDecorator = false := by
  induction c generalizing x with
  | nil => exact hx
  | cons f above ih =>
    rw [closing]
    split
    · next hafter =>
      have hline := (Context.sound_frame h).isLine (by simp) hblock
      have haround := (block_around h hblock).1
      rw [Context.fill, List.isEmpty_iff.mp hafter, List.append_nil] at h
      refine ih h haround ?_
      rw [Branch.isDecorator, decide_eq_false_iff_not]
      rintro hsymbol
      rw [hsymbol] at hline
      cases hline
    · exact hx

theorem widen_eq {place : Context × Branch} (h : place.2.isDecorator = false) :
    widen place = place := by
  match place, h with
  | ([], top), _ => rfl
  | (f :: above, top), h => rw [widen, if_neg (by simp [h])]

/-- A kept line of a branch is one of every branch around it. -/
theorem clear_eq_false_of_fill {b : Branch} (hfill : c.fill [x] = [b])
    (hrising : Rising b.shape.tokens) (hlast : ∀ y ∈ x.shape.tokens.getLast?, y.kind ≠ .verbatim)
    (hkept : clear keep x.shape.tokens = false) : clear keep b.shape.tokens = false := by
  rw [Context.tokens_of_fill hfill] at hrising ⊢
  exact clear_eq_false_of_infix hrising hlast hkept

end Regions

section Steps

variable {keep : LineSet} {led : Prop} {t : Tree} {root : Branch} {others : List Branch}
  {c : Context} {id : NodeId} {parts : List Branch}

/-- All that ends with a simple statement has a kept line. -/
theorem Underway.closing_kept (h : Underway keep led [] t root others)
    (hplace : c.fill [.node id .simpleStmt parts] = [root]) :
    (closing c (.node id .simpleStmt parts)).1 = [] ∨
      clear keep (closing c (.node id .simpleStmt parts)).2.shape.tokens = false := by
  have hsound := h.fill_sound hplace
  obtain ⟨init, m, token, rfl, hkind, -⟩ :=
    exists_line (Context.sound_of_fill hsound _ (List.mem_singleton_self _)) (.inl rfl)
  have hleaf : Context.fill (⟨id, .simpleStmt, init, []⟩ :: c) [.leaf m token] = [root] := by
    simpa [Context.fill] using hplace
  rcases h.settled _ m token hleaf hkind (List.not_mem_nil) with ⟨-, hregion⟩ | hheader
  · rw [closedRegion, closing_of_nil _ rfl,
      widen_eq (closing_not_decorator hsound rfl rfl)] at hregion
    exact hregion
  · cases hheader with
    | choice form => cases form
    | suite form => cases form
    | bare form => cases form

theorem Underway.rising_place (h : Underway keep led [] t root others) {x : Branch}
    (hplace : c.fill [x] = [root]) : Rising x.shape.tokens := by
  have hrising := h.rising
  rw [← Branch.tokens_shape, Context.tokens_of_fill hplace] at hrising
  exact hrising.sublist ((List.sublist_append_right _ _).trans (List.sublist_append_left _ _))

theorem Underway.suite_kept (h : Underway keep led [] t root others)
    (hplace : c.fill [.node id .suite parts] = [root])
    (hfresh : ∀ x ∈ (Branch.node id .suite parts).shape.tokens, x.kind ≠ .verbatim) :
    clear keep (Branch.node id .suite parts).shape.tokens = false := by
  have hkempt := Context.kempt_of_fill (h.fill_kempt hplace) _ (List.mem_singleton_self _)
  obtain ⟨b, hb, hlively⟩ := hkempt.furnished.lively rfl
  obtain ⟨pre, post, rfl⟩ := List.append_of_mem hb
  have hpart : Context.fill [⟨id, .suite, pre, post⟩] [b] = [.node id .suite (pre ++ b :: post)] := by
    simp [Context.fill]
  have hfresh' : ∀ x ∈ b.shape.tokens, x.kind ≠ .verbatim := fun x hx =>
    hfresh x (Context.tokens_of_fill hpart ▸ by simp [hx])
  have hpost : post ≠ [] := by
    rintro rfl
    obtain ⟨z, hz, hrole⟩ := hkempt.furnished.closed rfl
    rw [List.getLast?_concat, Option.mem_some_iff] at hz
    subst hz
    cases hlively with
    | @verbatim n token kind => exact hfresh' token (by simp) kind
    | line => cases hrole
    | @part _ symbol => cases symbol <;> cases hrole
  obtain ⟨inner, id', parts', hinner⟩ := hlively.exists_statement hfresh'
  have hwhole : Context.fill (inner ++ ⟨id, .suite, pre, post⟩ :: c) [.node id' .simpleStmt parts'] =
      [root] := by
    rw [Context.fill_append, hinner, ← hplace]
    simp [Context.fill]
  have hkept := h.closing_kept hwhole
  rw [@closing_within ⟨id, .suite, pre, post⟩ inner c _ hpost] at hkept
  replace hkept := hkept.resolve_left (by simp)
  have hregion := fill_closing inner (.node id' .simpleStmt parts')
  rw [hinner] at hregion
  generalize closing inner (.node id' .simpleStmt parts') = place at *
  have hfill : Context.fill (place.1 ++ [⟨id, .suite, pre, post⟩]) [place.2] =
      [.node id .suite (pre ++ b :: post)] := by
    rw [Context.fill_append, hregion, hpart]
  refine clear_eq_false_of_fill hfill (h.rising_place hplace) (fun y hy => ?_) hkept
  refine hfresh y (Context.tokens_of_fill hfill ▸ ?_)
  simp [List.mem_of_getLast? hy]

theorem suiteOwner?_around {x : Branch} (h : t.Holds (c.fill [x] ++ others)) :
    suiteOwner? t x.id = none ∨ ∃ (inner above : Context) (y : Branch),
      c = inner ++ above ∧ inner.fill [x] = [y] ∧ suiteOwner? t x.id = some y.id := by
  have hparent : t.parent? x.id = c.parent := h.parent? (List.mem_singleton_self x)
  rw [suiteOwner?, hparent]
  cases c with
  | nil => exact .inl rfl
  | cons f above =>
    have howner : t.Holds (Context.fill above
      [.node f.id f.symbol (f.before ++ [x] ++ f.after)] ++ others) := h
    have hup : t.parent? f.id = Context.parent above := howner.parent? (List.mem_singleton_self _)
    simp only [Context.parent, List.head?_cons, Option.map_some]
    split
    · rw [hup]
      cases above with
      | nil => exact .inl rfl
      | cons g above => exact .inr ⟨[f, g], above, _, rfl, rfl, rfl⟩
    · exact .inr ⟨[f], above, _, rfl, rfl, rfl⟩

theorem Underway.simpleStatement_idle (h : Underway keep led [] t root others)
    (hplace : c.fill [.node id .simpleStmt parts] = [root]) :
    simpleStatement keep t id = ⟨t, .ok false⟩ := by
  have hsound := h.fill_sound hplace
  have hregion := fill_closing c (.node id .simpleStmt parts)
  rw [hplace] at hregion
  rw [simpleStatement_eq (h.fill_holds hplace)
    (Context.sound_of_fill hsound _ (List.mem_singleton_self _))]
  refine region_stays (h.fill_holds hregion) ?_ (h.closing_kept hplace)
  exact (Context.sound_of_fill (h.fill_sound hregion) _ (List.mem_singleton_self _)).full

theorem Underway.suite_idle (h : Underway keep led [] t root others)
    (hplace : c.fill [.node id .suite parts] = [root]) :
    Collapse.suite keep t id = ⟨t, .ok false⟩ := by
  have hholds := h.fill_holds hplace
  have hgrows := hholds.run_grows _ (List.mem_singleton_self _)
  have hnodup : (Branch.node id .suite parts).ids.Nodup := by
    simpa [Branch.idsOfAll] using hholds.run_nodup
  rw [Collapse.suite]
  split
  · rfl
  · next hverbatim =>
    have hfresh : ∀ x ∈ (Branch.node id .suite parts).shape.tokens, x.kind ≠ .verbatim :=
      (containsVerbatim_eq_false_iff hgrows hnodup).mp (Bool.eq_false_iff.mpr hverbatim)
    have howner := suiteOwner?_around hholds
    rw [Branch.id] at howner
    rcases howner with hnone | ⟨inner, above, y, rfl, hinner, hsome⟩
    · rw [hnone]
    · rw [hsome]
      have houter : above.fill [y] = [root] := by rw [← hplace, Context.fill_append, hinner]
      have hy := (Context.sound_of_fill (h.fill_sound houter) _ (List.mem_singleton_self _)).full
      refine @region_stays keep t others (above, y) (h.fill_holds houter) hy (.inr ?_)
      exact clear_eq_false_of_fill hinner (h.rising_place houter)
        (fun z hz => hfresh z (List.mem_of_getLast? hz)) (h.suite_kept hplace hfresh)

/-- On a file whose newlines are dealt with, the statement pass does nothing. -/
theorem Underway.statementPass_idle (h : Underway keep led [] t root others) :
    statementPass keep t = ⟨t, .ok 0⟩ := by
  have hgrows := h.holds.grows root List.mem_cons_self
  refine sweep_idle (fun n hn => ?_) 0
  have hmem : n ∈ root.ids := mem_ids_of_mem_statementsBelow hgrows h.holds.linked
    (by simpa using h.root_id ▸ root.id_mem_ids) n hn
  obtain ⟨c, x, hplace, rfl⟩ := Context.exists_fill hmem
  have hx := (h.fill_holds hplace).run_grows x (List.mem_singleton_self x)
  have hsymbol := symbol?_of_mem_statementsBelow x.id hn
  cases x with
  | leaf id token => simp [Branch.id, hx.symbol?_leaf] at hsymbol
  | node id symbol parts =>
    rw [statement, isSymbol]
    rw [Branch.id, hx.symbol?_node, Option.some.injEq, Option.some.injEq] at hsymbol
    rw [Branch.id, hx.symbol?_node]
    rcases hsymbol with rfl | rfl
    · exact h.simpleStatement_idle hplace
    · exact h.suite_idle hplace

end Steps

end Collapse

end LineScope
