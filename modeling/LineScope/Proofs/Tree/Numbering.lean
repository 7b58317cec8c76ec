import LineScope.Proofs.Tree.Edits

/-!
# Trees from shapes

Building follows the text: at every moment the nodes under way are the frames above one gap, with
nothing after it. In the end the store holds one branch of the given shape, and it is well formed.
-/
namespace LineScope

namespace Builder

open LineScope.Tree

/-- The builder has the frames `f :: above` under way. -/
structure Under (b : Builder) (f : Frame) (above : Context) : Prop where
  holds : b.tree.Holds (Context.fill (f :: above) [] ++ [])
  unfinished : (f :: above).map Frame.id = b.unfinished ++ [rootId]
  after : ∀ g ∈ f :: above, g.after = []
  parent_lt : ∀ c p, b.tree.parent? c = some p → p < c

variable {b : Builder} {f : Frame} {above : Context}

theorem start_under (symbol : Symbol) : (start symbol).Under ⟨rootId, symbol, [], []⟩ [] := by
  have hnone (n : NodeId) : (Tree.empty symbol).parent? n = none := by
    unfold Tree.parent? Tree.empty
    rcases n with _ | n <;> rfl
  have hchildren (n : NodeId) : (Tree.empty symbol).children n = [] := by
    unfold Tree.children Tree.payload? Tree.empty
    rcases n with _ | n <;> rfl
  refine ⟨⟨⟨fun {p c} => ?_, fun p => ?_⟩, ?_, ?_⟩, rfl, by simp, fun c p hp => ?_⟩
  · simp [start, hnone, hchildren]
  · simp [start, hchildren]
  · intro b hb
    rw [Context.fill, Context.fill, List.append_nil, List.mem_singleton] at hb
    rw [hb]
    exact grows_node.mpr ⟨⟨rfl, rfl⟩, by simp⟩
  · simp [Context.fill, Branch.idsOfAll, Branch.ids]
  · simp [start, hnone] at hp

theorem Under.current (h : b.Under f above) : b.current = f.id := by
  have hids := h.unfinished
  unfold Builder.current
  cases hb : b.unfinished with
  | nil =>
    rw [hb, List.map_cons, List.nil_append, List.cons.injEq] at hids
    exact hids.1.symm
  | cons n rest =>
    rw [hb, List.map_cons, List.cons_append, List.cons.injEq] at hids
    exact hids.1.symm

theorem Under.attach (h : b.Under f above) {payload : Payload} (hchildless : payload.children = []) :
    (b.attach payload).Holds
        (Context.fill (f :: above) [.single b.tree.size payload] ++ []) ∧
      ∀ c p, (b.attach payload).parent? c = some p → p < c := by
  have hattach : b.attach payload = b.tree.graft payload f.id (· ++ [b.tree.size]) := by
    rw [Builder.attach, h.current]
    rfl
  have hafter : f.after = [] := h.after f (by simp)
  rw [hattach]
  refine ⟨h.holds.graft hchildless (by simp [hafter]), fun c p hp => ?_⟩
  rw [parent?_graft] at hp
  split at hp
  · next hc =>
    rw [hc, ← Option.some.inj hp]
    exact lt_size_of_payload? h.holds.surrounds.1.1
  · exact h.parent_lt c p hp

theorem Under.enter (h : b.Under f above) (symbol : Symbol) :
    (b.step (.enter symbol)).Under ⟨b.tree.size, symbol, [], []⟩ (f :: above) := by
  obtain ⟨hholds, hlt⟩ := @Under.attach b f above h (.interior symbol []) rfl
  refine ⟨hholds, ?_, ?_, hlt⟩
  · rw [List.map_cons, h.unfinished]
    rfl
  · exact List.forall_mem_cons.mpr ⟨rfl, h.after⟩

theorem Under.leave {id : NodeId} {symbol : Symbol} {parts : List Branch}
    (h : b.Under ⟨id, symbol, parts, []⟩ (f :: above)) :
    (b.step .leave).Under ⟨f.id, f.symbol, f.before ++ [.node id symbol parts], []⟩ above := by
  have hafter : f.after = [] := h.after f (by simp)
  refine ⟨?_, ?_, ?_, h.parent_lt⟩
  · have hholds := h.holds
    simp only [Context.fill, hafter, List.append_nil] at hholds ⊢
    exact hholds
  · have hids := h.unfinished
    cases hb : b.unfinished with
    | nil => simp [hb] at hids
    | cons n rest =>
      rw [hb, List.map_cons, List.cons_append, List.cons.injEq] at hids
      simpa [Builder.step, hb] using hids.2
  · exact List.forall_mem_cons.mpr ⟨rfl, fun g hg => h.after g (by simp [hg])⟩

theorem Under.token (h : b.Under f above) (leaf : Leaf) :
    (b.step (.token leaf)).Under
      ⟨f.id, f.symbol, f.before ++ [.leaf b.tree.size leaf], []⟩ above := by
  obtain ⟨hholds, hlt⟩ := @Under.attach b f above h (.token leaf) rfl
  have hafter : f.after = [] := h.after f (by simp)
  refine ⟨?_, h.unfinished, ?_, hlt⟩
  · simp only [Context.fill, hafter, List.append_nil, Branch.single] at hholds ⊢
    exact hholds
  · exact List.forall_mem_cons.mpr ⟨rfl, fun g hg => h.after g (by simp [hg])⟩

theorem Under.stepsOfAll {parts : List Shape} (h : b.Under f above)
    (hparts : ∀ s ∈ parts, ∀ (b : Builder) (f : Frame) (above : Context), b.Under f above →
      ∃ x : Branch, x.shape = s ∧
        (s.steps.foldl step b).Under ⟨f.id, f.symbol, f.before ++ [x], []⟩ above) :
    ∃ xs : List Branch, xs.map Branch.shape = parts ∧
      ((Shape.stepsOfAll parts).foldl step b).Under ⟨f.id, f.symbol, f.before ++ xs, []⟩ above := by
  induction parts generalizing b f with
  | nil =>
    have hf : (⟨f.id, f.symbol, f.before ++ [], []⟩ : Frame) = f := by
      rw [List.append_nil, ← h.after f (by simp)]
    exact ⟨[], rfl, by rw [hf]; exact h⟩
  | cons s rest ih =>
    obtain ⟨x, hx, hunder⟩ := hparts s (by simp) b f above h
    obtain ⟨xs, hxs, hunder'⟩ := ih hunder fun s hs => hparts s (by simp [hs])
    refine ⟨x :: xs, by rw [List.map_cons, hx, hxs], ?_⟩
    rw [Shape.stepsOfAll, List.foldl_append]
    simpa using hunder'

/-- The steps of a shape put a branch of that shape last below the node under way. -/
theorem Under.steps (h : b.Under f above) (s : Shape) :
    ∃ x : Branch, x.shape = s ∧
      (s.steps.foldl step b).Under ⟨f.id, f.symbol, f.before ++ [x], []⟩ above := by
  induction s generalizing b f above with
  | leaf token => exact ⟨.leaf b.tree.size token, rfl, h.token token⟩
  | node symbol parts ih =>
    obtain ⟨xs, hxs, hunder⟩ := (h.enter symbol).stepsOfAll fun s hs _ _ _ h => ih s hs h
    refine ⟨.node b.tree.size symbol xs, by rw [Branch.shape, Branch.shapesOfAll_eq_map, hxs], ?_⟩
    rw [Shape.steps, List.foldl_append, List.foldl_cons]
    exact hunder.leave

/-- The root is never left. -/
theorem Under.leave_root (h : b.Under f []) : (b.step .leave).Under f [] := by
  have hids := h.unfinished
  have hnil : b.unfinished = [] := by
    simpa using congrArg List.length hids
  exact ⟨h.holds, by simpa [Builder.step, hnil] using hids, h.after, h.parent_lt⟩

/-- Every step leaves some node under way. -/
theorem Under.step (h : b.Under f above) (s : Step) :
    ∃ f' above', (b.step s).Under f' above' := by
  cases s with
  | enter symbol => exact ⟨_, _, h.enter symbol⟩
  | token leaf => exact ⟨_, _, h.token leaf⟩
  | leave =>
    obtain ⟨id, symbol, before, after⟩ := f
    obtain rfl : after = [] := h.after ⟨id, symbol, before, after⟩ (by simp)
    cases above with
    | nil => exact ⟨_, _, h.leave_root⟩
    | cons g above => exact ⟨_, _, h.leave⟩

theorem Under.foldl (h : b.Under f above) (steps : List Step) :
    ∃ f' above', (steps.foldl Builder.step b).Under f' above' := by
  induction steps generalizing b f above with
  | nil => exact ⟨f, above, h⟩
  | cons s rest ih =>
    obtain ⟨f', above', h'⟩ := h.step s
    exact ih h'

theorem Under.rooted (h : b.Under f above) : Context.Rooted (f :: above) := by
  rw [Context.Rooted, ← List.getLast?_map, h.unfinished, List.getLast?_concat]

end Builder

namespace Tree

variable (symbol : Symbol) (shapes : List Shape)

/-- Every child is numbered after its parent, so building makes no cycle. -/
theorem build_wellFormed (steps : List Step) : (build symbol steps).WellFormed := by
  obtain ⟨f, above, hunder⟩ := (Builder.start_under symbol).foldl steps
  obtain ⟨root, hfill, hid⟩ := hunder.rooted.exists_root []
  have hholds := hunder.holds
  rw [hfill] at hholds
  have hgrows := hholds.grows root (by simp)
  have hdown {a b : NodeId} (h : Relation.TransGen (build symbol steps).IsChild a b) : b < a := by
    induction h with
    | single h => exact hunder.parent_lt _ _ h
    | tail _ h ih => exact (hunder.parent_lt _ _ h).trans ih
  refine ⟨hholds.linked, fun n h => absurd (hdown h) (Nat.lt_irrefl n), ?_, ?_⟩
  · exact hid ▸ hgrows.lt_size root.id_mem_ids
  · exact hid ▸ hgrows.parent?

/-- A built tree holds one branch, of the shape it was built from. -/
theorem ofShapes_holds :
    ∃ root : Branch, root.id = rootId ∧ root.shape = .node symbol shapes ∧
      (ofShapes symbol shapes).Holds [root] ∧
      ∀ c p, (ofShapes symbol shapes).parent? c = some p → p < c := by
  obtain ⟨xs, hxs, hunder⟩ := (Builder.start_under symbol).stepsOfAll fun s _ _ _ _ h => h.steps s
  refine ⟨.node rootId symbol xs, rfl, by rw [Branch.shape, Branch.shapesOfAll_eq_map, hxs], ?_,
    hunder.parent_lt⟩
  have hholds := hunder.holds
  simp only [Context.fill, List.nil_append, List.append_nil] at hholds
  exact hholds

theorem ofShapes_wellFormed : (ofShapes symbol shapes).WellFormed := build_wellFormed ..

theorem tokens_ofShapes : (ofShapes symbol shapes).tokens [rootId] = Shape.tokensOfAll shapes := by
  obtain ⟨root, hid, hshape, hholds, -⟩ := ofShapes_holds symbol shapes
  have htokens := @tokens_eq _ [root] (fun b hb => ⟨none, hholds.grows b hb⟩) hholds.nodup
  rw [List.map_singleton, hid] at htokens
  rw [htokens, ← Branch.tokensOfAll, ← Branch.tokensOfAll_shapes, List.map_singleton, hshape,
    Shape.tokensOfAll, Shape.tokensOfAll, Shape.tokens, List.append_nil]

theorem source_ofShapes :
    (ofShapes symbol shapes).source = Leaf.render (Shape.tokensOfAll shapes) := by
  rw [Tree.source, Tree.text, tokens_ofShapes]

end Tree

end LineScope
