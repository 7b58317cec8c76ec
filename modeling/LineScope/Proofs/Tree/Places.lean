import LineScope.Proofs.Tree.Context

/-!
# How two places lie to each other

The place of a leaf in a filled context: inside the run, or beside the way down to the gap, before it
or after it. A leaf beside that way stays where it is when another run fills the gap. As numbers are
taken only once, a leaf has one place.
-/
namespace LineScope

/-- Two frames that look the same from what is behind their gaps. -/
structure Frame.Alike (f g : Frame) : Prop where
  symbol : f.symbol = g.symbol
  before : f.before.map Branch.shape = g.before.map Branch.shape

structure Frame.SameShape (f g : Frame) : Prop extends f.Alike g where
  after : f.after.map Branch.shape = g.after.map Branch.shape

theorem Frame.Alike.refl (f : Frame) : f.Alike f := ⟨rfl, rfl⟩

namespace Context

variable {c d : Context} {x : Branch} {run : List Branch}

theorem exists_fill_singleton (c : Context) (x : Branch) : ∃ b, c.fill [x] = [b] := by
  induction c generalizing x with
  | nil => exact ⟨x, rfl⟩
  | cons f above ih => exact ih _

theorem left_append (c d : Context) : left (c ++ d) = left d ++ left c := by
  induction c with
  | nil => rw [List.nil_append, left, List.append_nil]
  | cons f above ih => rw [List.cons_append, left, left, ih, List.append_assoc]

theorem right_append (c d : Context) : right (c ++ d) = right c ++ right d := by
  induction c with
  | nil => rfl
  | cons f above ih => rw [List.cons_append, right, right, ih, List.append_assoc]

theorem exists_outermost {id : NodeId} {symbol : Symbol} {parts : List Branch}
    (h : c.fill [x] = [.node id symbol parts]) :
    c = [] ∧ x = .node id symbol parts ∨
      ∃ (inner : Context) (before after : List Branch) (b : Branch),
        c = inner ++ [⟨id, symbol, before, after⟩] ∧ parts = before ++ b :: after ∧
          inner.fill [x] = [b] := by
  rcases List.eq_nil_or_concat c with rfl | ⟨inner, f, rfl⟩
  · exact .inl ⟨rfl, List.singleton_inj.mp h⟩
  · right
    obtain ⟨b, hb⟩ := exists_fill_singleton inner x
    rw [List.concat_eq_append, fill_append, hb, fill, fill, List.singleton_inj,
      Branch.node.injEq] at h
    obtain ⟨rfl, rfl, rfl⟩ := h
    exact ⟨inner, f.before, f.after, b, List.concat_eq_append, by simp, hb⟩

/-- Where the place `c` of a leaf lies when a run fills the gap of `d`. -/
inductive Lies (c : Context) (x : Branch) (d : Context) (run : List Branch) : Prop
  | within {inner above : Context} {f : Frame} {pre post : List Branch} {b : Branch}
      (gap : d = f :: above) (run_eq : run = pre ++ b :: post) (fill : inner.fill [x] = [b])
      (place : c = inner ++ ⟨f.id, f.symbol, f.before ++ pre, post ++ f.after⟩ :: above)
  | before {inner path above : Context} {f : Frame} {pre post : List Branch} {b : Branch}
      (gap : d = path ++ f :: above) (before_eq : f.before = pre ++ b :: post)
      (fill : inner.fill [x] = [b])
      (place : c = inner ++ ⟨f.id, f.symbol, pre, post ++ path.fill run ++ f.after⟩ :: above)
  | after {inner path above : Context} {f : Frame} {pre post : List Branch} {b : Branch}
      (gap : d = path ++ f :: above) (after_eq : f.after = pre ++ b :: post)
      (fill : inner.fill [x] = [b])
      (place : c = inner ++ ⟨f.id, f.symbol, f.before ++ path.fill run ++ pre, post⟩ :: above)

/-- An element of two lists in a row is in the first or in the second. -/
theorem split_append {α : Type} {xs ys before after : List α} {b : α}
    (h : xs ++ ys = before ++ b :: after) :
    (∃ post, xs = before ++ b :: post ∧ after = post ++ ys) ∨
      ∃ pre, before = xs ++ pre ∧ ys = pre ++ b :: after := by
  rcases List.append_eq_append_iff.mp h with ⟨pre, hbefore, hys⟩ | ⟨mid, hxs, hmid⟩
  · exact .inr ⟨pre, hbefore, hys⟩
  · rcases List.cons_eq_append_iff.mp hmid with ⟨rfl, hys⟩ | ⟨post, rfl, hafter⟩
    · exact .inr ⟨[], by rw [hxs, List.append_nil, List.append_nil], hys⟩
    · exact .inl ⟨post, hxs, hafter⟩

theorem lies_of_split {f : Frame} {above inner : Context} {before after : List Branch} {b : Branch}
    (hparts : f.before ++ run ++ f.after = before ++ b :: after) (hfill : inner.fill [x] = [b])
    (hc : c = inner ++ ⟨f.id, f.symbol, before, after⟩ :: above) : Lies c x (f :: above) run := by
  rw [List.append_assoc] at hparts
  rcases split_append hparts with ⟨post, hbefore, rfl⟩ | ⟨pre, rfl, hrest⟩
  · rw [← List.append_assoc] at hc
    exact @Lies.before _ _ _ _ inner [] above f before post b rfl hbefore hfill hc
  · rcases split_append hrest with ⟨post, hrun, rfl⟩ | ⟨mid, rfl, hafter⟩
    · exact .within rfl hrun hfill hc
    · rw [← List.append_assoc] at hc
      exact @Lies.after _ _ _ _ inner [] above f mid after b rfl hafter hfill hc

/-- A place that lies at a node around a gap has the gap inside. -/
def Encloses (c : Context) (x : Branch) (d : Context) (run : List Branch) : Prop :=
  ∃ path, d = path ++ c ∧ path.fill run = [x]

/-- One level further in. -/
theorem Lies.step {f g : Frame} {above : Context}
    (h : Lies c x (g :: above) [.node f.id f.symbol (f.before ++ run ++ f.after)]) :
    Encloses c x (f :: g :: above) run ∨ Lies c x (f :: g :: above) run := by
  cases h with
  | @within inner above' g' pre post b gap run_eq fill place =>
    obtain ⟨rfl, rfl⟩ := List.cons.inj gap
    obtain ⟨rfl, hb, rfl⟩ : pre = [] ∧ Branch.node f.id f.symbol (f.before ++ run ++ f.after) = b ∧
        post = [] := by
      rw [eq_comm, List.append_eq_singleton_iff] at run_eq
      rcases run_eq with ⟨rfl, hcons⟩ | ⟨-, hcons⟩
      · obtain ⟨rfl, rfl⟩ := List.cons.inj hcons
        exact ⟨rfl, rfl, rfl⟩
      · exact absurd hcons (List.cons_ne_nil _ _)
    rw [← hb] at fill
    rcases exists_outermost fill with ⟨rfl, rfl⟩ | ⟨inner', before, after, b', rfl, hparts, hfill⟩
    · refine .inl ⟨[f], ?_, rfl⟩
      rw [place, List.append_nil]
      rfl
    · refine .inr (lies_of_split hparts hfill ?_)
      rw [place, List.append_nil, List.nil_append, List.append_assoc]
      rfl
  | @before inner path above' g' pre post b gap before_eq fill place =>
    exact .inr (@Lies.before _ _ _ _ inner (f :: path) above' g' pre post b (by rw [gap]; rfl)
      before_eq fill place)
  | @after inner path above' g' pre post b gap after_eq fill place =>
    exact .inr (@Lies.after _ _ _ _ inner (f :: path) above' g' pre post b (by rw [gap]; rfl)
      after_eq fill place)

theorem encloses_or_lies {f : Frame} {above : Context} (h : c.fill [x] = fill (f :: above) run) :
    Encloses c x (f :: above) run ∨ Lies c x (f :: above) run := by
  induction above generalizing f run with
  | nil =>
    rcases exists_outermost h with ⟨rfl, rfl⟩ | ⟨inner, before, after, b, hc, hparts, hfill⟩
    · exact .inl ⟨[f], rfl, rfl⟩
    · exact .inr (lies_of_split hparts hfill hc)
  | cons g above ih =>
    rcases ih h with ⟨path, hpath, hfill⟩ | hlies
    · exact .inl ⟨f :: path, by rw [hpath]; rfl, hfill⟩
    · exact hlies.step

/-- A leaf encloses no gap but one that it fills. -/
theorem lies_of_fill {f : Frame} {above : Context} (h : c.fill [x] = fill (f :: above) run)
    (hleaf : ∀ id symbol parts, x ≠ .node id symbol parts) : Lies c x (f :: above) run := by
  rcases encloses_or_lies h with ⟨path, hpath, hfill⟩ | hlies
  · rcases List.eq_nil_or_concat path with rfl | ⟨path, g, rfl⟩
    · have hrun : run = [] ++ x :: [] := hfill
      refine @Lies.within _ _ _ _ [] above f [] [] x rfl hrun rfl ?_
      rw [List.append_nil, List.nil_append]
      exact hpath.symm
    · rw [List.concat_eq_append, fill_append, fill, fill, List.singleton_inj] at hfill
      exact absurd hfill.symm (hleaf _ _ _)
  · exact hlies

theorem mem_leaves_of_fill {inner : Context} {b : Branch} (h : inner.fill [x] = [b]) :
    x.leaves ⊆ b.leaves := by
  intro y hy
  have hleaves := inner.leavesOfAll_fill [x]
  rw [h, Branch.leavesOfAll, Branch.leavesOfAll, Branch.leavesOfAll, Branch.leavesOfAll,
    List.append_nil, List.append_nil] at hleaves
  rw [hleaves]
  exact List.mem_append_left _ (List.mem_append_right _ hy)

section Beside

variable {path above : Context} {f : Frame} {pre post : List Branch} {b : Branch}

/-- What is before the gap of a context is among the leaves before it. -/
theorem leaves_subset_left (hd : d = path ++ f :: above) (hbefore : f.before = pre ++ b :: post) :
    b.leaves ⊆ d.left := by
  intro y hy
  rw [hd, left_append, left, hbefore, Branch.leavesOfAll_append, Branch.leavesOfAll]
  simp [hy]

theorem leaves_subset_right (hd : d = path ++ f :: above) (hafter : f.after = pre ++ b :: post) :
    b.leaves ⊆ d.right := by
  intro y hy
  rw [hd, right_append, right, hafter, Branch.leavesOfAll_append, Branch.leavesOfAll]
  simp [hy]

/-- A place beside the way down to a gap does not depend on what fills the gap. -/
theorem fill_before {inner : Context} (hfill : inner.fill [x] = [b])
    (hbefore : f.before = pre ++ b :: post) (path above : Context) (run : List Branch) :
    fill (inner ++ ⟨f.id, f.symbol, pre, post ++ path.fill run ++ f.after⟩ :: above) [x] =
      fill (path ++ f :: above) run := by
  rw [fill_append, hfill, fill_append, fill, fill, hbefore]
  simp

theorem fill_after {inner : Context} (hfill : inner.fill [x] = [b])
    (hafter : f.after = pre ++ b :: post) (path above : Context) (run : List Branch) :
    fill (inner ++ ⟨f.id, f.symbol, f.before ++ path.fill run ++ pre, post⟩ :: above) [x] =
      fill (path ++ f :: above) run := by
  rw [fill_append, hfill, fill_append, fill, fill, hafter]
  simp

end Beside

/-- A leaf has one place. -/
theorem place_unique {n : NodeId} {token token' : Leaf}
    (hnodup : ((Branch.leavesOfAll (d.fill [.leaf n token'])).map Prod.fst).Nodup)
    (h : c.fill [.leaf n token] = d.fill [.leaf n token']) : c = d ∧ token = token' := by
  have houter (inner : Context) (h : inner.fill [.leaf n token] = [.leaf n token']) :
      inner = [] ∧ token = token' := by
    rcases List.eq_nil_or_concat inner with rfl | ⟨inner, f, rfl⟩
    · exact ⟨rfl, (Branch.leaf.inj (List.singleton_inj.mp h)).2⟩
    · rw [List.concat_eq_append, fill_append, fill, fill, List.singleton_inj] at h
      cases h
  cases d with
  | nil => exact houter c h
  | cons f above =>
    rw [leavesOfAll_fill, List.map_append, List.map_append, List.nodup_append, List.nodup_append]
      at hnodup
    obtain ⟨⟨-, -, hleft⟩, -, hright⟩ := hnodup
    have hmem : n ∈ (Branch.leavesOfAll [.leaf n token']).map Prod.fst := List.mem_singleton_self n
    cases lies_of_fill h (fun _ _ _ heq => by cases heq) with
    | @within inner above' f' pre post b gap run_eq fill place =>
      obtain ⟨rfl, rfl⟩ := List.cons.inj gap
      rw [eq_comm, List.append_eq_singleton_iff] at run_eq
      rcases run_eq with ⟨rfl, hcons⟩ | ⟨-, hcons⟩
      · obtain ⟨rfl, rfl⟩ := List.cons.inj hcons
        obtain ⟨rfl, htoken⟩ := houter inner fill
        exact ⟨by rw [place, List.append_nil]; rfl, htoken⟩
      · exact absurd hcons (List.cons_ne_nil _ _)
    | before gap before_eq fill place =>
      have hin := leaves_subset_left gap before_eq
        (mem_leaves_of_fill fill (List.mem_singleton_self (n, token)))
      exact absurd rfl (hleft n (List.mem_map_of_mem hin) n hmem)
    | after gap after_eq fill place =>
      have hin := leaves_subset_right gap after_eq
        (mem_leaves_of_fill fill (List.mem_singleton_self (n, token)))
      exact absurd rfl (hright n (List.mem_append_right _ hmem) n (List.mem_map_of_mem hin))

theorem exists_same_place {b b' : Branch} (h : c.fill [x] = [b])
    (hshape : b.shape = b'.shape) :
    ∃ (c' : Context) (x' : Branch), c'.fill [x'] = [b'] ∧ x.shape = x'.shape ∧
      List.Forall₂ Frame.SameShape c c' := by
  induction c generalizing x with
  | nil =>
    rw [fill, List.singleton_inj] at h
    exact ⟨[], b', rfl, h ▸ hshape, .nil⟩
  | cons f above ih =>
    obtain ⟨c', y, hfill, hy, hsame⟩ := ih h
    cases y with
    | leaf id token => cases hy
    | node id symbol parts =>
      rw [Branch.shape, Branch.shape, Branch.shapesOfAll_eq_map, Branch.shapesOfAll_eq_map,
        Shape.node.injEq, List.map_append, List.map_append, List.append_assoc, eq_comm (a := f.symbol)]
        at hy
      obtain ⟨rfl, hparts⟩ := hy
      obtain ⟨before, rest, rfl, hbefore, hrest⟩ := List.map_eq_append_iff.mp hparts.symm
      obtain ⟨x', after, rfl, hx, hafter⟩ := List.map_eq_cons_iff.mp hrest
      refine ⟨⟨id, f.symbol, before, after⟩ :: c', x', ?_, hx.symm, .cons ⟨⟨rfl, hbefore.symm⟩,
        hafter.symm⟩ hsame⟩
      rw [← hfill, fill]
      simp

end Context

end LineScope
