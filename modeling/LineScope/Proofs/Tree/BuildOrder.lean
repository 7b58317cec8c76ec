import LineScope.Proofs.Parse.RoundTrip

/-!
# Building follows the text

Slots are allotted one after the other, and a new node goes behind all that hangs below the root, at
the end of the way down to the node under way. So the order of the numbers is the order of a walk,
however badly the steps are balanced.
-/
namespace LineScope

namespace Step

def token? : Step → Option Leaf
  | .token leaf => some leaf
  | .enter _ | .leave => none

def allots : Step → Bool
  | .enter _ | .token _ => true
  | .leave => false

end Step

namespace Context

variable {c : Context}

/-- The numbers of the nodes above a gap and of those before it, in the order of a walk. -/
def leading : Context → List NodeId
  | [] => []
  | f :: above => leading above ++ f.id :: Branch.idsOfAll f.before

theorem idsOfAll_fill_last (h : ∀ f ∈ c, f.after = []) (run : List Branch) :
    Branch.idsOfAll (c.fill run) = c.leading ++ Branch.idsOfAll run := by
  induction c generalizing run with
  | nil => rfl
  | cons f above ih =>
    obtain ⟨hf, habove⟩ := List.forall_mem_cons.mp h
    rw [fill, ih habove, leading, hf]
    simp [Branch.idsOfAll, Branch.ids]

theorem leavesOfAll_fill_last (h : ∀ f ∈ c, f.after = []) (run : List Branch) :
    Branch.leavesOfAll (c.fill run) = c.left ++ Branch.leavesOfAll run := by
  have hright : c.right = [] := by
    induction c with
    | nil => rfl
    | cons f above ih =>
      obtain ⟨hf, habove⟩ := List.forall_mem_cons.mp h
      rw [right, hf, ih habove]
      rfl
  rw [leavesOfAll_fill, hright, List.append_nil]

end Context

namespace Builder

/-- With the frames `f :: above` under way the nodes are numbered as a walk finds them, and the
leaves hold the tokens. -/
structure Ordered (b : Builder) (f : Frame) (above : Context) (tokens : List Leaf) : Prop
    extends b.Under f above where
  leading : Context.leading (f :: above) = List.range b.tree.size
  left : (Context.left (f :: above)).map Prod.snd = tokens

variable {b : Builder} {f : Frame} {above : Context} {tokens : List Leaf}

theorem start_ordered (symbol : Symbol) : (start symbol).Ordered ⟨rootId, symbol, [], []⟩ [] [] :=
  ⟨start_under symbol, rfl, rfl⟩

theorem size_attach (payload : Payload) : (b.attach payload).size = b.tree.size + 1 := by
  rw [attach, Tree.size_setParent, Tree.size_mapChildren, Tree.size_alloc]

theorem size_step (s : Step) :
    (b.step s).tree.size = b.tree.size + if s.allots then 1 else 0 := by
  cases s with
  | enter symbol => exact size_attach _
  | token leaf => exact size_attach _
  | leave => rfl

/-- A step puts the node it allots, if it does, behind all others. -/
theorem Under.step_order (h : b.Under f above) (s : Step) :
    ∃ f' above', (b.step s).Under f' above' ∧
      Context.leading (f' :: above') =
        Context.leading (f :: above) ++ (if s.allots then [b.tree.size] else []) ∧
      (Context.left (f' :: above')).map Prod.snd =
        (Context.left (f :: above)).map Prod.snd ++ s.token?.toList := by
  cases s with
  | enter symbol =>
    refine ⟨_, _, h.enter symbol, rfl, ?_⟩
    simp [Context.left, Step.token?, Branch.leavesOfAll]
  | token leaf =>
    refine ⟨_, _, h.token leaf, ?_, ?_⟩
    · simp [Context.leading, Step.allots, Branch.idsOfAll, Branch.ids]
    · simp [Context.left, Step.token?, Branch.leavesOfAll, Branch.leaves]
  | leave =>
    obtain ⟨id, symbol, before, after⟩ := f
    obtain rfl : after = [] := h.after ⟨id, symbol, before, after⟩ (by simp)
    cases above with
    | nil => exact ⟨_, _, h.leave_root, (List.append_nil _).symm, (List.append_nil _).symm⟩
    | cons g above =>
      refine ⟨_, _, h.leave, ?_, ?_⟩
      · simp [Context.leading, Step.allots, Branch.idsOfAll, Branch.ids]
      · simp [Context.left, Step.token?, Branch.leavesOfAll, Branch.leaves]

theorem Ordered.step (h : b.Ordered f above tokens) (s : Step) :
    ∃ f' above', (b.step s).Ordered f' above' (tokens ++ s.token?.toList) := by
  obtain ⟨f', above', hunder, hleading, hleft⟩ := h.toUnder.step_order s
  refine ⟨f', above', hunder, ?_, by rw [hleft, h.left]⟩
  rw [hleading, h.leading, size_step]
  split
  · exact List.range_succ.symm
  · exact List.append_nil _

theorem Ordered.foldl (h : b.Ordered f above tokens) (steps : List Step) :
    ∃ f' above',
      (steps.foldl Builder.step b).Ordered f' above' (tokens ++ steps.filterMap Step.token?) := by
  induction steps generalizing b f above tokens with
  | nil => exact ⟨f, above, by simpa using h⟩
  | cons s rest ih =>
    obtain ⟨f', above', h'⟩ := h.step s
    have hstep : tokens ++ (s :: rest).filterMap Step.token? =
        tokens ++ s.token?.toList ++ rest.filterMap Step.token? := by
      cases hs : s.token? <;> simp [hs]
    rw [hstep]
    exact ih h'

theorem size_foldl (steps : List Step) :
    (steps.foldl step b).tree.size = b.tree.size + steps.countP Step.allots := by
  induction steps generalizing b with
  | nil => rfl
  | cons s rest ih =>
    rw [List.foldl_cons, ih, size_step, List.countP_cons]
    omega

end Builder

namespace Tree

theorem exists_build_branch (symbol : Symbol) (steps : List Step) :
    ∃ root : Branch, root.id = rootId ∧ (build symbol steps).Holds [root] ∧
      root.ids = List.range (build symbol steps).size ∧
      root.leaves.map Prod.snd = steps.filterMap Step.token? := by
  obtain ⟨f, above, hordered⟩ := (Builder.start_ordered symbol).foldl steps
  obtain ⟨root, hfill, hid⟩ := hordered.rooted.exists_root []
  refine ⟨root, hid, ?_, ?_, ?_⟩
  · rw [← hfill, ← List.append_nil (Context.fill _ _)]
    exact hordered.holds
  · have hlast := Context.idsOfAll_fill_last hordered.after []
    simp only [hfill, hordered.leading, Branch.idsOfAll, List.append_nil] at hlast
    exact hlast
  · have hlast := Context.leavesOfAll_fill_last hordered.after []
    simp only [hfill, Branch.leavesOfAll, List.append_nil] at hlast
    rw [hlast, hordered.left, List.nil_append]

/-- Building leaves no slot behind. -/
theorem build_descendants (symbol : Symbol) (steps : List Step) :
    (build symbol steps).descendants rootId = List.range (build symbol steps).size := by
  obtain ⟨root, hid, hholds, hids, -⟩ := exists_build_branch symbol steps
  rw [← hid, (hholds.grows root (by simp)).descendants_eq
    (Branch.ids_nodup_of_mem hholds.nodup (by simp)), hids]

/-- The walk of a built tree counts through its slots, and reads the tokens as they came. -/
theorem build_order (symbol : Symbol) (steps : List Step) :
    (build symbol steps).size = 1 + steps.countP Step.allots ∧
      (build symbol steps).descendants rootId = List.range (build symbol steps).size ∧
      ((build symbol steps).leaves rootId).map (build symbol steps).leaf? =
        (steps.filterMap Step.token?).map some ∧
      ((∀ leaf ∈ steps.filterMap Step.token?, leaf.kind ≠ .verbatim) →
        (build symbol steps).source =
          String.ofList (Leaf.chars (steps.filterMap Step.token?))) := by
  obtain ⟨root, hid, hholds, -, htokens⟩ := exists_build_branch symbol steps
  have hgrows := hholds.grows root (by simp)
  have hnodup : root.ids.Nodup := Branch.ids_nodup_of_mem hholds.nodup (by simp)
  have hleaves : (build symbol steps).leaves rootId = root.leaves.map Prod.fst :=
    hid ▸ hgrows.leaves_eq hnodup
  refine ⟨Builder.size_foldl steps, build_descendants symbol steps, ?_, fun hfresh => ?_⟩
  · rw [hleaves, ← htokens, List.map_map, List.map_map]
    exact List.map_congr_left fun x hx => hgrows.leaf?_of_mem hx
  · have hread := tokens_eq (fun b hb => ⟨none, hholds.grows b hb⟩) hholds.nodup
    rw [List.map_singleton, hid, Branch.leavesOfAll, Branch.leavesOfAll, List.append_nil,
      htokens] at hread
    rw [source, text, hread, ← Leaf.toList_render hfresh, String.ofList_toList]

theorem build_order_unbalanced :
    let t := build .fileInput [.leave, .token ⟨.name, " ", "a", 1⟩, .enter .simpleStmt,
      .token ⟨.newline, "", "b", 2⟩, .leave, .leave, .leave, .enter .suite, .token ⟨.op, "#", "c", 9⟩]
    t.descendants rootId = [0, 1, 2, 3, 4, 5] ∧ t.source = " ab#c" := by
  obtain ⟨hsize, hwalk, -, hsource⟩ := build_order .fileInput [.leave, .token ⟨.name, " ", "a", 1⟩,
    .enter .simpleStmt, .token ⟨.newline, "", "b", 2⟩, .leave, .leave, .leave, .enter .suite,
    .token ⟨.op, "#", "c", 9⟩]
  exact ⟨by rw [hwalk, hsize]; rfl, (hsource (by decide)).trans (by decide +kernel)⟩

end Tree

end LineScope
