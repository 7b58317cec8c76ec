import LineScope.Proofs.Tree.Forest

/-!
# Places in a forest

A `Context` is a branch with a gap: the nodes above the gap, innermost first, each with what stands
before and after the gap among its children. `Context.fill` puts a run of branches into the gap.
`Tree.holds_fill` splits what a store holds into the run and what surrounds it.
-/
namespace LineScope

structure Frame where
  id : NodeId
  symbol : Symbol
  before : List Branch
  after : List Branch

abbrev Context := List Frame

namespace Context

def fill : Context → List Branch → List Branch
  | [], run => run
  | f :: above, run => fill above [.node f.id f.symbol (f.before ++ run ++ f.after)]

def parent (c : Context) : Option NodeId := c.head?.map Frame.id

def ids : Context → List NodeId
  | [] => []
  | f :: above => f.id :: (Branch.idsOfAll f.before ++ Branch.idsOfAll f.after ++ ids above)

def left : Context → List (NodeId × Leaf)
  | [] => []
  | f :: above => left above ++ Branch.leavesOfAll f.before

def right : Context → List (NodeId × Leaf)
  | [] => []
  | f :: above => Branch.leavesOfAll f.after ++ right above

theorem fill_append (c d : Context) (run : List Branch) : fill (c ++ d) run = fill d (fill c run) := by
  induction c generalizing run with
  | nil => rfl
  | cons f above ih => exact ih _

theorem leavesOfAll_fill (c : Context) (run : List Branch) :
    Branch.leavesOfAll (c.fill run) = c.left ++ Branch.leavesOfAll run ++ c.right := by
  induction c generalizing run with
  | nil => simp [fill, left, right]
  | cons f above ih =>
    simp only [fill, left, right, ih]
    simp [Branch.leavesOfAll, Branch.leaves]

theorem idsOfAll_fill (c : Context) (run : List Branch) :
    (Branch.idsOfAll (c.fill run)).Perm (Branch.idsOfAll run ++ c.ids) := by
  induction c generalizing run with
  | nil => simp [fill, ids]
  | cons f above ih =>
    refine (ih _).trans ?_
    simp only [Branch.idsOfAll, Branch.ids, Branch.idsOfAll_append, ids, List.append_nil,
      List.cons_append, List.append_assoc]
    refine (List.Perm.cons _ ?_).trans List.perm_middle.symm
    rw [← List.append_assoc, ← List.append_assoc (Branch.idsOfAll run)]
    exact List.perm_append_comm.append_right _

theorem mem_idsOfAll_fill {c : Context} {run others : List Branch} {n : NodeId} :
    n ∈ Branch.idsOfAll (c.fill run ++ others) ↔
      n ∈ Branch.idsOfAll run ∨ n ∈ c.ids ∨ n ∈ Branch.idsOfAll others := by
  rw [Branch.idsOfAll_append, List.mem_append, (c.idsOfAll_fill run).mem_iff, List.mem_append,
    or_assoc]

/-- Every node of a branch stands in the gap of some context. -/
theorem exists_fill {b : Branch} {n : NodeId} (h : n ∈ b.ids) :
    ∃ (c : Context) (x : Branch), c.fill [x] = [b] ∧ x.id = n := by
  induction b with
  | leaf id token =>
    rw [Branch.ids, List.mem_singleton] at h
    exact ⟨[], .leaf id token, rfl, h.symm⟩
  | node id symbol parts ih =>
    rw [Branch.ids, List.mem_cons, Branch.idsOfAll_eq_flatMap, List.mem_flatMap] at h
    rcases h with rfl | ⟨b, hb, hn⟩
    · exact ⟨[], .node n symbol parts, rfl, rfl⟩
    · obtain ⟨c, x, hfill, hx⟩ := ih b hb hn
      obtain ⟨before, after, rfl⟩ := List.append_of_mem hb
      refine ⟨c ++ [⟨id, symbol, before, after⟩], x, ?_, hx⟩
      rw [fill_append, hfill]
      simp [fill]

theorem exists_fill_node (f : Frame) (c : Context) :
    ∃ id symbol, ∀ run, ∃ parts, fill (f :: c) run = [.node id symbol parts] := by
  induction c generalizing f with
  | nil => exact ⟨f.id, f.symbol, fun run => ⟨_, rfl⟩⟩
  | cons g above ih =>
    obtain ⟨id, symbol, hnode⟩ := ih g
    exact ⟨id, symbol, fun run => hnode _⟩

theorem getLast?_of_fill {c : Context} {x b : Branch} (h : c.fill [x] = [b]) :
    (x.id :: c.map Frame.id).getLast? = some b.id := by
  induction c generalizing x with
  | nil =>
    rw [fill, List.singleton_inj] at h
    rw [h, List.map_nil, List.getLast?_singleton]
  | cons f above ih =>
    rw [List.map_cons, List.getLast?_cons_cons]
    exact ih h

theorem length_le_length_ids (c : Context) : c.length ≤ c.ids.length := by
  induction c with
  | nil => simp
  | cons f above ih =>
    simp only [ids, List.length_cons, List.length_append]
    omega

def Rooted (c : Context) : Prop := c.getLast?.map Frame.id = some rootId

theorem Rooted.cons {c : Context} (h : c.Rooted) (f : Frame) :
    Rooted (f :: c) := by
  unfold Rooted at h ⊢
  cases c with
  | nil => simp at h
  | cons g above => rwa [List.getLast?_cons_cons]

theorem Rooted.reframe {f g : Frame} {above : Context} (h : Rooted (f :: above))
    (hid : g.id = f.id) : Rooted (g :: above) := by
  unfold Rooted at h ⊢
  cases above with
  | nil => simpa [hid] using h
  | cons e above => simpa using h

theorem Rooted.exists_root {c : Context} (h : c.Rooted) (run : List Branch) :
    ∃ root, c.fill run = [root] ∧ root.id = rootId := by
  induction c generalizing run with
  | nil => simp [Rooted] at h
  | cons f above ih =>
    cases above with
    | nil => exact ⟨_, rfl, by simpa [Rooted, Branch.id] using h⟩
    | cons g above => exact ih (by simpa [Rooted] using h) _

end Context

namespace Tree

/-- The store has the slots around a gap in which the nodes of `gap` stand. -/
def Surrounds (t : Tree) : Context → List NodeId → Prop
  | [], _ => True
  | f :: above, gap =>
    (t.payload? f.id = some (.interior f.symbol
        (f.before.map Branch.id ++ gap ++ f.after.map Branch.id)) ∧
      t.parent? f.id = Context.parent above) ∧
    (∀ b ∈ f.before ++ f.after, t.Grows (some f.id) b) ∧ t.Surrounds above [f.id]

theorem grows_fill {t : Tree} {c : Context} {run : List Branch} :
    (∀ b ∈ c.fill run, t.Grows none b) ↔
      (∀ b ∈ run, t.Grows c.parent b) ∧ t.Surrounds c (run.map Branch.id) := by
  induction c generalizing run with
  | nil => simp [Context.fill, Context.parent, Surrounds]
  | cons f above ih =>
    rw [Context.fill, ih]
    simp only [List.mem_singleton, forall_eq, grows_node, Surrounds, List.map_append,
      List.map_cons, List.map_nil, Branch.id, Context.parent, List.head?_cons, Option.map_some,
      List.mem_append]
    constructor
    · rintro ⟨⟨hslot, hparts⟩, habove⟩
      exact ⟨fun b hb => hparts b (.inl (.inr hb)), hslot,
        fun b hb => hparts b (hb.elim (fun h => .inl (.inl h)) .inr), habove⟩
    · rintro ⟨hrun, hslot, hsides, habove⟩
      refine ⟨⟨hslot, fun b hb => ?_⟩, habove⟩
      rcases hb with (hb | hb) | hb
      · exact hsides b (.inl hb)
      · exact hrun b hb
      · exact hsides b (.inr hb)

/-- A store holds a filled context and other branches exactly if it has the run, what surrounds it,
and the others, with no number taken twice. -/
theorem holds_fill {t : Tree} {c : Context} {run others : List Branch} :
    t.Holds (c.fill run ++ others) ↔
      t.Linked ∧ ((∀ b ∈ run, t.Grows c.parent b) ∧ t.Surrounds c (run.map Branch.id) ∧
        ∀ b ∈ others, t.Grows none b) ∧
      (Branch.idsOfAll run ++ (c.ids ++ Branch.idsOfAll others)).Nodup := by
  have hids : (Branch.idsOfAll (c.fill run ++ others)).Perm
      (Branch.idsOfAll run ++ (c.ids ++ Branch.idsOfAll others)) := by
    rw [Branch.idsOfAll_append, ← List.append_assoc]
    exact (c.idsOfAll_fill run).append_right _
  constructor
  · intro h
    have hfill := grows_fill.mp fun b hb => h.grows b (List.mem_append_left _ hb)
    exact ⟨h.linked, ⟨hfill.1, hfill.2, fun b hb => h.grows b (List.mem_append_right _ hb)⟩,
      hids.nodup_iff.mp h.nodup⟩
  · rintro ⟨hlinked, ⟨hrun, hsurrounds, hothers⟩, hnodup⟩
    refine ⟨hlinked, fun b hb => ?_, hids.nodup_iff.mpr hnodup⟩
    rcases List.mem_append.mp hb with hb | hb
    · exact grows_fill.mpr ⟨hrun, hsurrounds⟩ b hb
    · exact hothers b hb

theorem Surrounds.congr {t u : Tree} {c : Context} {gap : List NodeId} (h : t.Surrounds c gap)
    (hpayload : ∀ n ∈ c.ids, u.payload? n = t.payload? n)
    (hparent : ∀ n ∈ c.ids, u.parent? n = t.parent? n) : u.Surrounds c gap := by
  induction c generalizing gap with
  | nil => trivial
  | cons f above ih =>
    obtain ⟨hslot, hsides, habove⟩ := h
    simp only [Context.ids, List.forall_mem_cons, List.mem_append] at hpayload hparent
    refine ⟨⟨hpayload.1.trans hslot.1, hparent.1.trans hslot.2⟩, fun b hb => ?_,
      ih habove (fun n hn => hpayload.2 n (.inr hn)) fun n hn => hparent.2 n (.inr hn)⟩
    have hin {n : NodeId} (hn : n ∈ b.ids) :
        n ∈ Branch.idsOfAll f.before ∨ n ∈ Branch.idsOfAll f.after :=
      (List.mem_append.mp hb).imp (fun h => Branch.ids_subset_idsOfAll h hn)
        fun h => Branch.ids_subset_idsOfAll h hn
    exact (hsides b hb).congr (fun n hn => hpayload.2 n (.inl (hin hn)))
      fun n hn => hparent.2 n (.inl (hin hn))

/-- What surrounds a gap stays when only the child list right above it changes. -/
theorem Surrounds.regap {t u : Tree} {f : Frame} {above : Context} {gap gap' : List NodeId}
    (h : t.Surrounds (f :: above) gap) (hnodup : (Context.ids (f :: above)).Nodup)
    (htop : u.payload? f.id = some (.interior f.symbol
      (f.before.map Branch.id ++ gap' ++ f.after.map Branch.id)))
    (hpayload : ∀ n ∈ Context.ids (f :: above), n ≠ f.id → u.payload? n = t.payload? n)
    (hparent : ∀ n ∈ Context.ids (f :: above), u.parent? n = t.parent? n) :
    u.Surrounds (f :: above) gap' := by
  obtain ⟨hslot, hsides, habove⟩ := h
  rw [Context.ids, List.nodup_cons] at hnodup
  have hne {n : NodeId} (hn : n ∈ Branch.idsOfAll f.before ++ Branch.idsOfAll f.after ++
      Context.ids above) : u.payload? n = t.payload? n := by
    refine hpayload n (List.mem_cons_of_mem _ hn) ?_
    rintro rfl
    exact hnodup.1 hn
  have hkeep {n : NodeId} (hn : n ∈ Branch.idsOfAll f.before ++ Branch.idsOfAll f.after ++
      Context.ids above) : u.parent? n = t.parent? n := hparent n (List.mem_cons_of_mem _ hn)
  refine ⟨⟨htop, (hparent _ (by simp [Context.ids])).trans hslot.2⟩, fun b hb => ?_,
    habove.congr (fun n hn => hne (List.mem_append_right _ hn))
      fun n hn => hkeep (List.mem_append_right _ hn)⟩
  have hin {n : NodeId} (hn : n ∈ b.ids) :
      n ∈ Branch.idsOfAll f.before ++ Branch.idsOfAll f.after ++ Context.ids above := by
    refine List.mem_append_left _ (List.mem_append.mpr ?_)
    exact (List.mem_append.mp hb).imp (fun h => Branch.ids_subset_idsOfAll h hn)
      fun h => Branch.ids_subset_idsOfAll h hn
  exact (hsides b hb).congr (fun n hn => hne (hin hn)) fun n hn => hkeep (hin hn)

end Tree

end LineScope
