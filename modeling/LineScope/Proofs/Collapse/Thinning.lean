import LineScope.Proofs.Collapse.Coarsening
import LineScope.Proofs.Collapse.KeptLines
import LineScope.Proofs.Tree.Places

/-!
# Lines and newlines through a fold

A fold takes leaves away and puts a verbatim leaf on the line of the first one. The lines go on
ascending, what has a kept line goes on having one, and the newlines that are left stay in order, so
those still to be visited come after the others.
-/
namespace LineScope

namespace Collapse

/-- Lines ascend, and tokens that are not verbatim end before those after them start. -/
structure Rising (tokens : List Leaf) : Prop where
  sorted : tokens.Pairwise fun a b => a.line ≤ b.line
  ordered : Leaf.Ordered tokens

section Lines

variable {keep : LineSet} {tokens before run after : List Leaf} {first last x : Leaf}

theorem Rising.sublist (h : Rising tokens) (hsub : run.Sublist tokens) : Rising run :=
  ⟨h.sorted.sublist hsub, h.ordered.sublist hsub⟩

theorem Rising.of_ascend (h : Leaf.LinesAscend tokens) : Rising tokens := by
  refine ⟨h.pairwise.imp fun {a b} hab => a.line_le_endLine.trans hab, h.pairwise.imp ?_⟩
  exact fun hab _ => hab

theorem Rising.line_le (h : Rising tokens) (hfirst : tokens.head? = some first) (hx : x ∈ tokens) :
    first.line ≤ x.line := by
  obtain ⟨rest, rfl⟩ := List.head?_eq_some_iff.mp hfirst
  rcases List.mem_cons.mp hx with rfl | hx
  · exact Nat.le_refl _
  · exact List.rel_of_pairwise_cons h.sorted hx

theorem Rising.endLine_le (h : Rising tokens) (hlast : tokens.getLast? = some last) (hx : x ∈ tokens)
    (hkind : x.kind ≠ .verbatim) : x.endLine ≤ last.endLine := by
  obtain ⟨init, rfl⟩ := List.getLast?_eq_some_iff.mp hlast
  rcases List.mem_append.mp hx with hx | hx
  · have hbefore := (List.pairwise_append.mp h.ordered).2.2 x hx last (List.mem_singleton_self _)
    exact (hbefore hkind).trans last.line_le_endLine
  · rw [List.mem_singleton.mp hx]

theorem Rising.le_line (h : Rising tokens) (hlast : tokens.getLast? = some last) (hx : x ∈ tokens) :
    x.line ≤ last.line := by
  obtain ⟨init, rfl⟩ := List.getLast?_eq_some_iff.mp hlast
  rcases List.mem_append.mp hx with hx | hx
  · exact (List.pairwise_append.mp h.sorted).2.2 x hx last (List.mem_singleton_self _)
  · rw [List.mem_singleton.mp hx]

/-- A line from the first to the last of some tokens is kept. -/
theorem exists_kept (h : clear keep tokens = false) :
    ∃ first last line, tokens.head? = some first ∧ tokens.getLast? = some last ∧
      keep.contains line = true ∧ first.line ≤ line ∧ line ≤ last.endLine := by
  rcases List.eq_nil_or_concat tokens with rfl | ⟨init, last, rfl⟩
  · cases h
  · obtain ⟨first, hfirst⟩ : ∃ first, (init.concat last).head? = some first := by
      cases init <;> exact ⟨_, rfl⟩
    have hlast : (init.concat last).getLast? = some last := by simp
    obtain ⟨line, hline⟩ := (clear_eq_false_iff hfirst hlast).mp h
    exact ⟨first, last, line, hfirst, hlast, hline⟩

/-- A kept line of some tokens is one of any that reach as far on both sides. -/
theorem clear_eq_false_of_le {first' last' : Leaf} {tokens' : List Leaf}
    (h : clear keep tokens = false) (hfirst' : tokens'.head? = some first')
    (hlast' : tokens'.getLast? = some last') (hle : ∀ x ∈ tokens.head?, first'.line ≤ x.line)
    (hge : ∀ x ∈ tokens.getLast?, x.endLine ≤ last'.endLine) : clear keep tokens' = false := by
  obtain ⟨first, last, line, hfirst, hlast, hkept, hfrom, hto⟩ := exists_kept h
  exact (clear_eq_false_iff hfirst' hlast').mpr
    ⟨line, hkept, (hle first hfirst).trans hfrom, hto.trans (hge last hlast)⟩

/-- A kept line shows through whatever stands around it. -/
theorem clear_eq_false_of_infix (h : Rising (before ++ run ++ after))
    (hlast : ∀ x ∈ run.getLast?, x.kind ≠ .verbatim) (hkept : clear keep run = false) :
    clear keep (before ++ run ++ after) = false := by
  have hmem {x : Leaf} (hx : x ∈ run) : x ∈ before ++ run ++ after := by simp [hx]
  obtain ⟨first, last, -, hfirst, -⟩ := exists_kept hkept
  have hne : before ++ run ++ after ≠ [] :=
    List.ne_nil_of_mem (hmem (List.mem_of_mem_head? hfirst))
  have hhead := List.head?_eq_some_head hne
  have hfinal := List.getLast?_eq_some_getLast hne
  refine clear_eq_false_of_le hkept hhead hfinal (fun x hx => ?_) fun x hx => ?_
  · exact h.line_le hhead (hmem (List.mem_of_mem_head? hx))
  · exact h.endLine_le hfinal (hmem (List.mem_of_getLast? hx)) (hlast x hx)

end Lines

/-- Folds of lines and of headers keep the lines ascending. -/
theorem Coarsens.rising {Header : List Leaf → Prop} {a b : List Leaf} (h : Coarsens Header a b)
    (ha : Rising a) : Rising b := by
  refine ⟨?_, h.ordered ha.ordered⟩
  replace ha := ha.sorted
  have hfold (run : List Leaf) : (fold run).Pairwise fun a b => a.line ≤ b.line := by
    cases run with
    | nil => exact List.Pairwise.nil
    | cons x more => exact List.pairwise_singleton _ _
  induction h with
  | refl tokens => exact ha
  | trans first second ihfirst ihsecond => exact ihsecond (ihfirst ha)
  | append opens left right ihleft ihright =>
    rw [List.pairwise_append] at ha ⊢
    obtain ⟨hleft, hright, hcross⟩ := ha
    refine ⟨ihleft hleft, ihright hright, fun x hx y hy => ?_⟩
    obtain ⟨w, hw, hwx⟩ := left.starts x hx
    obtain ⟨z, hz, hzy⟩ := right.starts y hy
    exact hwx ▸ hzy ▸ hcross w hw z hz
  | closed starts ends => exact hfold _
  | header spoken kind =>
    rw [List.pairwise_append] at ha ⊢
    refine ⟨hfold _, List.pairwise_singleton _ _, fun x hx y hy => ?_⟩
    obtain ⟨z, hz, hzx⟩ := (mem_fold hx).2
    exact hzx ▸ ha.2.2 z hz y hy

section Thins

variable {keep : LineSet} {new : NodeId} {leaves leaves' : List (NodeId × Leaf)}

/-- What holds between any two leaves in a row still does, if it may be said of a verbatim leaf on
the line of another. -/
theorem Thins.pairwise {R : Leaf → Leaf → Prop} (h : Thins keep new leaves leaves')
    (hto : ∀ a x text, R a x → R a (verbatim x text))
    (hfrom : ∀ x text b, R x b → R (verbatim x text) b) (hleaves : (leaves.map Prod.snd).Pairwise R) :
    (leaves'.map Prod.snd).Pairwise R := by
  cases h with
  | refl => exact hleaves
  | @drop left inner region right first leaf text clear =>
    rw [List.pairwise_map, List.pairwise_append, List.pairwise_cons] at hleaves ⊢
    obtain ⟨hleft, ⟨hfirst, hrest⟩, hcross⟩ := hleaves
    have hsub : (inner ++ right).Sublist (inner ++ region ++ right) := by simp
    refine ⟨hleft, ⟨fun b hb => hfrom _ _ _ (hfirst b (hsub.subset hb)), hrest.sublist hsub⟩,
      fun a ha b hb => ?_⟩
    rcases List.mem_cons.mp hb with rfl | hb
    · exact hto _ _ _ (hcross a ha (first, leaf) List.mem_cons_self)
    · exact hcross a ha b (List.mem_cons_of_mem _ (hsub.subset hb))

theorem Thins.rising (h : Thins keep new leaves leaves') (hleaves : Rising (leaves.map Prod.snd)) :
    Rising (leaves'.map Prod.snd) :=
  ⟨h.pairwise (fun _ _ _ hab => hab) (fun _ _ _ hab => hab) hleaves.sorted,
    h.pairwise (fun _ _ _ hab => hab) (fun _ _ _ _ hkind => absurd rfl hkind) hleaves.ordered⟩

theorem Thins.kept (h : Thins keep new leaves leaves') :
    ∀ x ∈ leaves', x.2.kind = .verbatim ∨ x ∈ leaves := by
  intro x hx
  cases h with
  | refl => exact .inr hx
  | drop clear =>
    simp only [List.mem_append, List.mem_cons] at hx ⊢
    rcases hx with hx | rfl | hx | hx
    · exact .inr (.inl hx)
    · exact .inl rfl
    · exact .inr (.inr (.inr (.inl (.inl hx))))
    · exact .inr (.inr (.inr (.inr hx)))

theorem Thins.newlineIds_sublist (h : Thins keep new leaves leaves') :
    (newlineIds leaves').Sublist (newlineIds leaves) := by
  cases h with
  | refl => exact List.Sublist.refl _
  | @drop left inner region right first leaf text clear =>
    refine List.Sublist.map _ ?_
    rw [List.filter_append, List.filter_append]
    refine List.Sublist.append_left ?_ _
    rw [List.filter_cons_of_neg (by simp [verbatim])]
    exact (List.Sublist.cons _ (by simp)).filter _

/-- What has a kept line still has one: the lines that went are not kept. -/
theorem Thins.clear_eq_false (h : Thins keep new leaves leaves')
    (hrising : Rising (leaves.map Prod.snd)) (hkept : clear keep (leaves.map Prod.snd) = false) :
    clear keep (leaves'.map Prod.snd) = false := by
  have hrising' := h.rising hrising
  cases h with
  | refl => exact hkept
  | @drop left inner region right first leaf text clear =>
    obtain ⟨x, last, line, hx, hlast, hline, hfrom, hto⟩ := exists_kept hkept
    set tokens := (left ++ (new, verbatim leaf text) :: (inner ++ right)).map Prod.snd with htokens
    have hmem : verbatim leaf text ∈ tokens := by simp [htokens]
    have hne : tokens ≠ [] := List.ne_nil_of_mem hmem
    have hfinal := List.getLast?_eq_some_getLast hne
    obtain ⟨x', hx', hstart⟩ : ∃ x', tokens.head? = some x' ∧ x'.line = x.line := by
      cases left with
      | nil => exact ⟨_, rfl, by rw [← Option.some.inj hx]; rfl⟩
      | cons y left => exact ⟨_, rfl, by rw [← Option.some.inj hx]⟩
    refine (clear_eq_false_iff hx' hfinal).mpr ⟨line, hline, hstart ▸ hfrom, ?_⟩
    by_cases hlt : line < leaf.line
    · have hnew : leaf.line ≤ (tokens.getLast hne).line :=
        @Rising.le_line tokens _ (verbatim leaf text) hrising' hfinal hmem
      exact (hlt.le.trans hnew).trans (Leaf.line_le_endLine _)
    · have hout : ∀ z ∈ (leaf :: region.map Prod.snd).getLast?, ¬line ≤ z.endLine := by
        intro z hz hle
        have hcontra := (@clear_eq_false_iff keep _ _ _ List.head?_cons hz).mpr
          ⟨line, hline, not_lt.mp hlt, hle⟩
        rw [hcontra] at clear
        exact Bool.noConfusion clear
      suffices hsame : tokens.getLast? = some last by
        rw [hfinal] at hsame
        rwa [Option.some.inj hsame]
      rcases List.eq_nil_or_concat right with rfl | ⟨right, z, rfl⟩
      · rcases List.eq_nil_or_concat region with rfl | ⟨region, z, rfl⟩
        · rcases List.eq_nil_or_concat inner with rfl | ⟨inner, z, rfl⟩
          · obtain rfl : leaf = last := by simpa using hlast
            exact absurd hto (hout leaf rfl)
          · obtain rfl : z.2 = last := by simpa [List.getLast?_append, List.getLast?_cons] using hlast
            simp [htokens, List.getLast?_append, List.getLast?_cons]
        · obtain rfl : z.2 = last := by simpa [List.getLast?_append, List.getLast?_cons] using hlast
          exact absurd hto (hout z.2 (by simp [List.getLast?_cons]))
      · obtain rfl : z.2 = last := by simpa [List.getLast?_append, List.getLast?_cons] using hlast
        simp [htokens, List.getLast?_append, List.getLast?_cons]

end Thins

/-- Those of some newlines that are still to be visited come after the others, in order. -/
def Queued (rest ids : List NodeId) : Prop :=
  ∃ gone left, ids = gone ++ left ∧ left.Sublist rest ∧ ∀ n ∈ gone, n ∉ rest

section Queued

variable {m : NodeId} {rest ids ids' before after : List NodeId}

theorem Queued.refl (ids : List NodeId) : Queued ids ids :=
  ⟨[], ids, rfl, List.Sublist.refl _, by simp⟩

theorem Queued.sublist (h : Queued rest ids) (hsub : ids'.Sublist ids) : Queued rest ids' := by
  obtain ⟨gone, left, rfl, hleft, hgone⟩ := h
  obtain ⟨gone', left', rfl, hgone', hleft'⟩ := List.sublist_append_iff.mp hsub
  exact ⟨gone', left', rfl, hleft'.trans hleft, fun n hn => hgone n (hgone'.subset hn)⟩

theorem Queued.next (h : Queued (m :: rest) ids) (hm : m ∉ rest) : Queued rest ids := by
  obtain ⟨gone, left, rfl, hleft, hgone⟩ := h
  have hgone' : ∀ n ∈ gone, n ∉ rest := fun n hn hmem => hgone n hn (List.mem_cons_of_mem m hmem)
  cases hleft with
  | cons _ hleft => exact ⟨gone, left, rfl, hleft, hgone'⟩
  | @cons_cons left _ _ hleft =>
    refine ⟨gone ++ [m], left, by simp, hleft, List.forall_mem_append.mpr ⟨hgone', ?_⟩⟩
    rw [List.forall_mem_singleton]
    exact hm

/-- What comes before the newline that is visited is done, and what comes after it is not. -/
theorem Queued.split (h : Queued (m :: rest) (before ++ m :: after)) (hm : m ∉ rest) :
    (∀ n ∈ before, n ∉ m :: rest) ∧ ∀ n ∈ after, n ∈ rest := by
  obtain ⟨gone, left, heq, hleft, hgone⟩ := h
  rcases Context.split_append heq.symm with ⟨post, rfl, -⟩ | ⟨pre, rfl, rfl⟩
  · exact absurd List.mem_cons_self (hgone m (by simp))
  · cases pre with
    | nil =>
      rw [List.append_nil]
      cases hleft with
      | cons _ hleft => exact absurd (hleft.subset List.mem_cons_self) hm
      | cons_cons _ hleft => exact ⟨hgone, fun n hn => hleft.subset hn⟩
    | cons n pre =>
      refine absurd ?_ hm
      cases hleft with
      | cons _ hleft => exact hleft.subset (by simp)
      | cons_cons _ hleft => exact hleft.subset (by simp)

end Queued

end Collapse

end LineScope
