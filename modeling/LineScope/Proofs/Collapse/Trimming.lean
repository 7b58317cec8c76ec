import LineScope.Proofs.Collapse.LogicalLine

/-!
# Statements under the line pass

What the line pass makes of branches of a given shape, wherever they stand. A statement is swept up
to its last leaf first (`Collapse.Trimmed`); the newline that ends it comes when it is known that
something stands after the statement (`Collapse.Closed`).
-/
namespace LineScope

namespace Shape.Plain

theorem full {s : Shape} (h : s.Plain) : s.Full := by
  induction h with
  | leaf ordinary => exact .leaf _
  | node nonempty plain ih => exact .node nonempty ih

theorem isOrdinary {s : Shape} (h : s.Plain) : ∀ token ∈ s.tokens, token.kind.isOrdinary = true := by
  induction h with
  | leaf ordinary =>
    intro token htoken
    rw [tokens, List.mem_singleton] at htoken
    rwa [htoken]
  | node nonempty plain ih =>
    intro token htoken
    rw [tokens, tokensOfAll_eq_flatMap, List.mem_flatMap] at htoken
    obtain ⟨s, hs, htoken⟩ := htoken
    exact ih s hs token htoken

theorem quiet {b : Branch} (h : b.shape.Plain) : b.Quiet := by
  cases b with
  | leaf id token =>
    have hordinary := h.isOrdinary token (by simp [Branch.shape, tokens])
    intro hkind
    rw [hkind] at hordinary
    exact Bool.noConfusion hordinary
  | node id symbol parts =>
    rw [Branch.shape] at h
    cases h with
    | node nonempty plain => simp [Branch.Quiet]

end Shape.Plain

namespace Branch

/-- What a sweep leaves of a branch as long as the last leaf has not been dealt with. -/
structure Trims (b x : Branch) : Prop where
  full : x.shape.Full
  quiet : x.Quiet
  last : x.leaves.getLast? = b.leaves.getLast?
  ends : ∀ n newline, b.leaves.getLast? = some (n, newline) → newline.kind = .newline →
    x.Ends n newline

end Branch

namespace Grammar

theorem IsHeader.full {run : List Branch} (h : IsHeader (run.map Branch.shape)) :
    ∀ b ∈ run, b.shape.Full := fun _ hb => (h.2 _ (List.mem_map_of_mem hb)).full

theorem IsHeader.quiet {run : List Branch} (h : IsHeader (run.map Branch.shape)) :
    ∀ b ∈ run, b.Quiet := fun _ hb => (h.2 _ (List.mem_map_of_mem hb)).quiet

theorem IsHeader.ne_nil {run : List Branch} (h : IsHeader (run.map Branch.shape)) : run ≠ [] := by
  have hne := h.1
  simpa using hne

theorem header_tokens_ne_nil {parts : List Shape} (h : IsHeader parts) :
    Shape.tokensOfAll parts ≠ [] := by
  obtain ⟨s, rest, rfl⟩ := List.exists_cons_of_ne_nil h.1
  have hs := Shape.tokens_ne_nil_of_full (h.2 s (by simp)).full
  simp [Shape.tokensOfAll, hs]

theorem IsHeader.tokens_ne_nil {run : List Branch} (h : IsHeader (run.map Branch.shape)) :
    Branch.tokensOfAll run ≠ [] := Branch.tokensOfAll_shapes run ▸ header_tokens_ne_nil h

theorem IsHeader.isOrdinary {parts : List Shape} (h : IsHeader parts) :
    ∀ token ∈ Shape.tokensOfAll parts, token.kind.isOrdinary = true := by
  intro token htoken
  rw [Shape.tokensOfAll_eq_flatMap, List.mem_flatMap] at htoken
  obtain ⟨s, hs, htoken⟩ := htoken
  exact (h.2 s hs).isOrdinary token htoken

theorem IsHeader.newlineIds {run : List Branch} (h : IsHeader (run.map Branch.shape)) :
    Collapse.newlineIds (Branch.leavesOfAll run) = [] := by
  refine Collapse.newlineIds_eq_nil fun x hx hkind => ?_
  have hordinary := h.isOrdinary x.2 (by
    rw [Branch.tokensOfAll_shapes]
    exact List.mem_map_of_mem hx)
  rw [hkind] at hordinary
  exact Bool.noConfusion hordinary

end Grammar

namespace Collapse

open LineScope.Tree Grammar

def Unled (before : List Branch) : Prop := ∀ b ∈ before.getLast?, b.isAsync = false

/-- Wherever a branch of the given shape stands, the line pass leaves these tokens of it before it
comes to the last leaf. -/
def Trimmed (keep : LineSet) (shape : Shape) (tokens : List Leaf) : Prop :=
  ∀ (t : Tree) (f : Frame) (above : Context) (b : Branch) (others : List Branch),
    t.Holds (Context.fill (f :: above) [b] ++ others) → Context.Rooted (f :: above) →
    Unled f.before → b.shape = shape →
    Turns (logicalLine keep) t (newlineIds b.leaves.dropLast) (f :: above) others fun run =>
      ∃ x, run = [x] ∧ b.Trims x ∧ x.shape.tokens = tokens

/-- The same for statements one after the other with something behind them, to the last newline. -/
def Closed (keep : LineSet) (shapes : List Shape) (tokens : List Leaf) : Prop :=
  ∀ (t : Tree) (f : Frame) (above : Context) (bs others : List Branch),
    t.Holds (Context.fill (f :: above) bs ++ others) → Context.Rooted (f :: above) →
    Unled f.before → f.after ≠ [] → bs.map Branch.shape = shapes →
    Turns (logicalLine keep) t (newlineIds (Branch.leavesOfAll bs)) (f :: above) others fun run =>
      (∀ x ∈ run, x.shape.Full ∧ x.Quiet) ∧ Branch.tokensOfAll run = tokens

section Lists

theorem newlineIds_dropLast {xs : List (NodeId × Leaf)}
    (h : ∀ x ∈ xs.getLast?, x.2.kind ≠ .newline) : newlineIds xs.dropLast = newlineIds xs := by
  rcases List.eq_nil_or_concat xs with rfl | ⟨init, x, rfl⟩
  · rfl
  · have hx : x.2.kind ≠ .newline := h x (by simp)
    simp [newlineIds, hx]

theorem newlineIds_of_getLast? {xs : List (NodeId × Leaf)} {n : NodeId} {newline : Leaf}
    (h : xs.getLast? = some (n, newline)) (hkind : newline.kind = .newline) :
    newlineIds xs = newlineIds xs.dropLast ++ [n] := by
  obtain ⟨init, rfl⟩ := List.getLast?_eq_some_iff.mp h
  simp [newlineIds, hkind]

theorem endsLine_tokens {b : Branch} {x : NodeId × Leaf} (h : b.leaves.getLast? = some x) :
    endsLine b.shape.tokens = decide (x.2.kind = .newline) := by
  simp [endsLine, Branch.tokens_shape, List.getLast?_map, h]

end Lists

section Statements

variable {keep : LineSet}

theorem trimmed_leaf {leaf : Leaf} (hkind : leaf.kind = .verbatim) :
    Trimmed keep (.leaf leaf) [leaf] := by
  intro t f above b others h hrooted hunled hshape
  obtain ⟨id, rfl⟩ := Branch.exists_leaf hshape
  refine Turns.stay h ⟨_, rfl, ⟨.leaf _, by simp [Branch.Quiet, hkind], rfl, ?_⟩, rfl⟩
  intro n newline hlast hnewline
  simp only [Branch.leaves, List.getLast?_singleton, Option.some.injEq, Prod.mk.injEq] at hlast
  rw [← hlast.2, hkind] at hnewline
  exact TokenKind.noConfusion hnewline

theorem full_line {line : Line} (h : line.Wf) : line.shape.Full := by
  cases line with
  | verbatim leaf => exact .leaf _
  | simple parts newline =>
    refine .node (by simp) fun s hs => ?_
    rcases List.mem_append.mp hs with hs | hs
    · exact (h.1.2 s hs).full
    · rw [List.mem_singleton.mp hs]
      exact .leaf _

theorem trimmed_line {line : Line} (h : line.Wf) : Trimmed keep line.shape line.shape.tokens := by
  cases line with
  | verbatim leaf => exact trimmed_leaf h
  | simple parts newline =>
    intro t f above b others hholds hrooted hunled hshape
    obtain ⟨id, bs, rfl, hbs⟩ := Branch.exists_node hshape
    rw [List.map_eq_append_iff] at hbs
    obtain ⟨run, last, rfl, rfl, hlast⟩ := hbs
    obtain ⟨x, rfl, hx⟩ := List.map_eq_singleton_iff.mp hlast
    obtain ⟨n, rfl⟩ := Branch.exists_leaf hx
    have hleaves : (Branch.node id .simpleStmt (run ++ [.leaf n newline])).leaves =
        Branch.leavesOfAll run ++ [(n, newline)] := by
      simp [Branch.leaves, Branch.leavesOfAll]
    rw [hleaves, List.dropLast_concat, h.1.newlineIds]
    refine Turns.stay hholds ⟨_, rfl, ⟨?_, by simp [Branch.Quiet], rfl, ?_⟩, ?_⟩
    · rw [hshape]
      exact full_line h
    · intro m nl hm hkind
      rw [hleaves, List.getLast?_concat, Option.some.injEq, Prod.mk.injEq] at hm
      rw [← hm.1, ← hm.2]
      exact .simple h.1.ne_nil
    · rw [hshape]

theorem Trimmed.closed {shape : Shape} {tokens : List Leaf} (h : Trimmed keep shape tokens) :
    Closed keep [shape] (sealClosed keep tokens) := by
  intro t f above bs others hholds hrooted hunled hafter hshape
  obtain ⟨b, rfl, hb⟩ := List.map_eq_singleton_iff.mp hshape
  have hinner := h t f above b others hholds hrooted hunled hb
  rw [show Branch.leavesOfAll [b] = b.leaves by simp [Branch.leavesOfAll]]
  by_cases hlast : ∃ n newline, b.leaves.getLast? = some (n, newline) ∧ newline.kind = .newline
  · obtain ⟨n, newline, hlast, hkind⟩ := hlast
    rw [newlineIds_of_getLast? hlast hkind]
    refine hinner.andThen ?_
    rintro u run others' hu ⟨x, rfl, hx, rfl⟩
    have hends := hx.ends n newline hlast hkind
    refine (turns_closed hu hrooted hafter hends hx.quiet hx.full).mono ?_
    rintro run ⟨y, rfl, hfull, hquiet, htokens⟩
    refine ⟨by simpa using ⟨hfull, hquiet⟩, ?_⟩
    rw [Branch.tokensOfAll_singleton, htokens, sealClosed,
      endsLine_tokens hends.getLast?_leaves, if_pos (decide_eq_true hkind)]
  · have hother : ∀ x ∈ b.leaves.getLast?, x.2.kind ≠ .newline :=
      fun x hx hkind => hlast ⟨x.1, x.2, hx, hkind⟩
    rw [← newlineIds_dropLast hother]
    refine hinner.mono ?_
    rintro run ⟨x, rfl, hx, rfl⟩
    refine ⟨by simpa using ⟨hx.full, hx.quiet⟩, ?_⟩
    rw [Branch.tokensOfAll_singleton, sealClosed, if_neg]
    obtain ⟨y, hy⟩ := Option.isSome_iff_exists.mp
      (List.getLast?_isSome.mpr (Branch.leaves_ne_nil_of_full hx.full))
    rw [endsLine_tokens hy, decide_eq_true_iff]
    exact hother y (hx.last ▸ hy)

theorem Closed.nil : Closed keep [] [] := by
  intro t f above bs others h hrooted hunled hafter hshape
  rw [List.map_eq_nil_iff] at hshape
  subst hshape
  exact Turns.stay h ⟨by simp, rfl⟩

theorem unled_of_ne_nil {before run : List Branch} (hne : run ≠ [])
    (hrun : ∀ b ∈ run, b.isAsync = false) : Unled (before ++ run) := by
  intro b hb
  rw [List.getLast?_append_of_ne_nil before hne] at hb
  exact hrun b (List.mem_of_getLast? hb)

theorem unled_append {before run : List Branch} (hbefore : Unled before)
    (hrun : ∀ b ∈ run, b.isAsync = false) : Unled (before ++ run) := by
  by_cases hne : run = []
  · rwa [hne, List.append_nil]
  · exact unled_of_ne_nil hne hrun

theorem Closed.append {shapes shapes' : List Shape} {tokens tokens' : List Leaf}
    (h : Closed keep shapes tokens) (h' : Closed keep shapes' tokens') :
    Closed keep (shapes ++ shapes') (tokens ++ tokens') := by
  intro t f above bs others hholds hrooted hunled hafter hshape
  obtain ⟨run, run', rfl, hrun, hrun'⟩ := List.map_eq_append_iff.mp hshape
  have hfirst : t.Holds (Context.fill (⟨f.id, f.symbol, f.before, run' ++ f.after⟩ :: above) run ++
      others) := by
    simpa [Context.fill] using hholds
  have hturns := h t _ above run others hfirst (hrooted.reframe rfl) hunled (by simp [hafter]) hrun
  rw [Branch.leavesOfAll_append, newlineIds_append]
  refine hturns.andThen ?_
  rintro u xs others' hu ⟨hxs, rfl⟩
  have hsecond : u.Holds (Context.fill (⟨f.id, f.symbol, f.before ++ xs, f.after⟩ :: above) run' ++
      others') := by
    simpa [Context.fill] using hu
  have hturns' := h' u _ above run' others' hsecond (hrooted.reframe rfl)
    (unled_append hunled fun b hb => (hxs b hb).2.isAsync) hafter hrun'
  refine hturns'.through ?_
  rintro ys ⟨hys, rfl⟩
  refine ⟨xs ++ ys, by simp [Context.fill], ?_, by simp⟩
  intro b hb
  rcases List.mem_append.mp hb with hb | hb
  · exact hxs b hb
  · exact hys b hb

theorem closed_lines {lines : List Line} (h : ∀ line ∈ lines, line.Wf) :
    Closed keep (lines.map Line.shape) (lineTokens keep true lines) := by
  induction lines with
  | nil => exact Closed.nil
  | cons line rest ih =>
    rw [List.forall_mem_cons] at h
    cases rest with
    | nil => exact (trimmed_line h.1).closed
    | cons next rest => exact (trimmed_line h.1).closed.append (ih h.2)

structure TrimsAll (bs run : List Branch) : Prop where
  ne_nil : run ≠ []
  full : ∀ x ∈ run, x.shape.Full
  last : (Branch.leavesOfAll run).getLast? = (Branch.leavesOfAll bs).getLast?
  ends : ∀ n newline, (Branch.leavesOfAll bs).getLast? = some (n, newline) →
    newline.kind = .newline → ∃ init x, run = init ++ [x] ∧ x.Ends n newline

theorem TrimsAll.exists_last {bs run : List Branch} (h : TrimsAll bs run) :
    ∃ y, (Branch.leavesOfAll run).getLast? = some y ∧ (Branch.leavesOfAll bs).getLast? = some y := by
  obtain ⟨b, hb, -, hlast⟩ := leavesOfAll_getLast? h.ne_nil fun b hb =>
    Branch.leaves_ne_nil_of_full (h.full b hb)
  obtain ⟨y, hy⟩ := Option.isSome_iff_exists.mp
    (List.getLast?_isSome.mpr (Branch.leaves_ne_nil_of_full (h.full b hb)))
  exact ⟨y, hlast.trans hy, h.last.symm.trans (hlast.trans hy)⟩

theorem TrimsAll.append {before before' bs run : List Branch} (h : TrimsAll bs run)
    (hfull : ∀ x ∈ before', x.shape.Full) : TrimsAll (before ++ bs) (before' ++ run) := by
  obtain ⟨y, hrun, hbs⟩ := h.exists_last
  refine ⟨by simp [h.ne_nil], ?_, ?_, ?_⟩
  · intro x hx
    rcases List.mem_append.mp hx with hx | hx
    · exact hfull x hx
    · exact h.full x hx
  · simp [List.getLast?_append, hrun, hbs]
  · intro n newline hlast hkind
    rw [Branch.leavesOfAll_append, List.getLast?_append, hbs, Option.some_or] at hlast
    obtain ⟨init, x, rfl, hx⟩ := h.ends n newline (hbs.trans hlast) hkind
    exact ⟨before' ++ init, x, by simp, hx⟩

theorem TrimsAll.of_trims {b x : Branch} (h : b.Trims x) : TrimsAll [b] [x] := by
  refine ⟨by simp, by simpa using h.full, by simpa [Branch.leavesOfAll] using h.last, ?_⟩
  intro n newline hlast hkind
  exact ⟨[], x, rfl, h.ends n newline (by simpa [Branch.leavesOfAll] using hlast) hkind⟩

theorem TrimsAll.node {bs run : List Branch} (h : TrimsAll bs run) {id : NodeId} {symbol : Symbol}
    (hsuite : symbol ≠ .suite) (hdecorator : symbol ≠ .decorator) :
    (Branch.node id symbol bs).Trims (.node id symbol run) := by
  refine ⟨Branch.full_node h.ne_nil h.full, ⟨hsuite, hdecorator⟩, h.last, ?_⟩
  intro n newline hlast hkind
  obtain ⟨init, x, rfl, hx⟩ := h.ends n newline hlast hkind
  exact .last hx

def TrimmedAll (keep : LineSet) (shapes : List Shape) (tokens : List Leaf) : Prop :=
  ∀ (t : Tree) (f : Frame) (above : Context) (bs others : List Branch),
    t.Holds (Context.fill (f :: above) bs ++ others) → Context.Rooted (f :: above) →
    Unled f.before → bs.map Branch.shape = shapes →
    Turns (logicalLine keep) t (newlineIds (Branch.leavesOfAll bs).dropLast) (f :: above) others
      fun run => TrimsAll bs run ∧ Branch.tokensOfAll run = tokens

theorem Trimmed.trimmedAll {shape : Shape} {tokens : List Leaf} (h : Trimmed keep shape tokens) :
    TrimmedAll keep [shape] tokens := by
  intro t f above bs others hholds hrooted hunled hshape
  obtain ⟨b, rfl, hb⟩ := List.map_eq_singleton_iff.mp hshape
  have hinner := h t f above b others hholds hrooted hunled hb
  rw [show Branch.leavesOfAll [b] = b.leaves by simp [Branch.leavesOfAll]]
  refine hinner.mono ?_
  rintro run ⟨x, rfl, hx, htokens⟩
  exact ⟨.of_trims hx, by rw [Branch.tokensOfAll_singleton, htokens]⟩

theorem leavesOfAll_ne_nil {bs : List Branch} (hne : bs ≠ []) (hfull : ∀ b ∈ bs, b.shape.Full) :
    Branch.leavesOfAll bs ≠ [] := by
  obtain ⟨b, rest, rfl⟩ := List.exists_cons_of_ne_nil hne
  have hb := Branch.leaves_ne_nil_of_full (hfull b (by simp))
  simp [Branch.leavesOfAll, hb]

theorem Closed.trimmedAll {shapes shapes' : List Shape} {tokens tokens' : List Leaf}
    (h : Closed keep shapes tokens) (h' : TrimmedAll keep shapes' tokens')
    (hfull : ∀ s ∈ shapes', s.Full) (hne : shapes' ≠ []) :
    TrimmedAll keep (shapes ++ shapes') (tokens ++ tokens') := by
  intro t f above bs others hholds hrooted hunled hshape
  obtain ⟨run, run', rfl, hrun, rfl⟩ := List.map_eq_append_iff.mp hshape
  rw [ne_eq, List.map_eq_nil_iff] at hne
  have hfirst : t.Holds (Context.fill (⟨f.id, f.symbol, f.before, run' ++ f.after⟩ :: above) run ++
      others) := by
    simpa [Context.fill] using hholds
  have hturns := h t _ above run others hfirst (hrooted.reframe rfl) hunled (by simp [hne]) hrun
  have hleaves : Branch.leavesOfAll run' ≠ [] :=
    leavesOfAll_ne_nil hne fun b hb => hfull b.shape (List.mem_map_of_mem hb)
  rw [Branch.leavesOfAll_append, List.dropLast_append_of_ne_nil hleaves, newlineIds_append]
  refine hturns.andThen ?_
  rintro u xs others' hu ⟨hxs, rfl⟩
  have hsecond : u.Holds (Context.fill (⟨f.id, f.symbol, f.before ++ xs, f.after⟩ :: above) run' ++
      others') := by
    simpa [Context.fill] using hu
  have hturns' := h' u _ above run' others' hsecond (hrooted.reframe rfl)
    (unled_append hunled fun b hb => (hxs b hb).2.isAsync) rfl
  refine hturns'.through ?_
  rintro ys ⟨hys, rfl⟩
  exact ⟨xs ++ ys, by simp [Context.fill], hys.append fun x hx => (hxs x hx).1, by simp⟩

theorem trimmedAll_lines {lines : List Line} (hne : lines ≠ []) (h : ∀ line ∈ lines, line.Wf) :
    TrimmedAll keep (lines.map Line.shape) (lineTokens keep false lines) := by
  induction lines with
  | nil => exact absurd rfl hne
  | cons line rest ih =>
    rw [List.forall_mem_cons] at h
    cases rest with
    | nil => exact (trimmed_line h.1).trimmedAll
    | cons next rest =>
      refine (trimmed_line h.1).closed.trimmedAll (ih (by simp) h.2) ?_ (by simp)
      intro s hs
      rw [← List.map_cons] at hs
      obtain ⟨l, hl, rfl⟩ := List.mem_map.mp hs
      exact full_line (h.2 l hl)

end Statements

end Collapse

end LineScope
