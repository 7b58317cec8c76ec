import LineScope.Proofs.Collapse.Bodies
import LineScope.Proofs.Collapse.Safety
import LineScope.Proofs.Collapse.Settled
import LineScope.Proofs.Collapse.Thinning

/-!
# One visit of the line pass

While the line pass runs, the newlines it has come past are dealt with. A visit leaves the store or
folds one region, after which the other newlines before the region are still dealt with, and those
behind it are still to be visited. So only the place of the newline that was visited is left to see.
-/
namespace LineScope

namespace Context

variable {c : Context} {run : List Branch}

theorem fill_ne_nil (h : run ≠ []) : c.fill run ≠ [] := by
  cases c with
  | nil => exact h
  | cons f above =>
    obtain ⟨top, htop⟩ := exists_fill_cons f above
    obtain ⟨b, hb, -⟩ := htop run
    simp [hb]

theorem leaves_of_fill {root : Branch} (h : c.fill run = [root]) :
    root.leaves = c.left ++ Branch.leavesOfAll run ++ c.right := by
  rw [← leavesOfAll_fill, h, Branch.leavesOfAll, Branch.leavesOfAll, List.append_nil]

end Context

namespace Branch

variable {p : NodeId → Prop} {b : Branch}

/-- What stands within a header is made of ordinary tokens. -/
theorem Sound.isOrdinary (h : b.Sound p) (hrole : b.shape.role = .inline) :
    ∀ x ∈ b.leaves, x.2.kind.isOrdinary = true := by
  induction b with
  | leaf id token =>
    intro x hx
    rw [List.mem_singleton.mp hx]
    rw [shape, Shape.role, TokenKind.role] at hrole
    split at hrole
    · cases hrole
    · split at hrole
      · assumption
      · cases hrole
  | node id symbol parts ih =>
    intro x hx
    have hlaid := h.arranged.laid
    rw [shape, Shape.role] at hrole
    cases symbol with
    | other name =>
      rw [leaves, leavesOfAll_eq_flatMap, List.mem_flatMap] at hx
      obtain ⟨b, hb, hx⟩ := hx
      exact ih b hb (h.part hb) (hlaid _ (List.mem_map_of_mem hb)) x hx
    | _ => cases hrole

end Branch

namespace Collapse

open LineScope.Tree

def Settled (keep : LineSet) (led : Prop) (c : Context) (x : Branch) : Prop :=
  LineSettled keep x c ∨ HeaderSettled keep led c

def SettledBut (keep : LineSet) (led : Prop) (rest : List NodeId) (top : List Branch) : Prop :=
  ∀ (c : Context) (n : NodeId) (token : Leaf), c.fill [.leaf n token] = top →
    token.kind = .newline → n ∉ rest → Settled keep led c (.leaf n token)

def Visited (keep : LineSet) (led : Prop) (m : NodeId) (top : List Branch) : Prop :=
  m ∉ Branch.idsOfAll top ∨ ∃ (c : Context) (token : Leaf),
    c.fill [.leaf m token] = top ∧ Settled keep led c (.leaf m token)

section Places

variable {keep : LineSet} {led : Prop} {m new : NodeId} {rest : List NodeId} {top : List Branch}

theorem SettledBut.visit (h : SettledBut keep led (m :: rest) top)
    (hnodup : (Branch.idsOfAll top).Nodup) (hm : Visited keep led m top) :
    SettledBut keep led rest top := by
  intro c n token hfill hkind hn
  by_cases hnm : n = m
  · subst hnm
    rcases hm with hgone | ⟨d, token', hplace, hsettled⟩
    · refine absurd ?_ hgone
      rw [← hfill, (c.idsOfAll_fill _).mem_iff]
      exact List.mem_append_left _ (by simp [Branch.idsOfAll, Branch.ids])
    · have hleaves : ((Branch.leavesOfAll (d.fill [.leaf n token'])).map Prod.fst).Nodup := by
        rw [hplace]
        exact (Branch.leavesOfAll_map_fst_sublist top).nodup hnodup
      obtain ⟨rfl, rfl⟩ := Context.place_unique hleaves (hfill.trans hplace.symm)
      exact hsettled
  · exact h c n token hfill hkind (by simp [hnm, hn])

variable {f : Frame} {above : Context} {run run' : List Branch}

/-- What fills a gap may be folded, if all newlines from there on are still to be visited. -/
theorem SettledBut.refill (h : SettledBut keep led rest (Context.fill (f :: above) run))
    (hthins : ∀ left right, Thins keep new (left ++ Branch.leavesOfAll run ++ right)
      (left ++ Branch.leavesOfAll run' ++ right))
    (hrising : Rising ((Branch.leavesOfAll (Context.fill (f :: above) run)).map Prod.snd))
    (hne : run ≠ []) (hne' : run' ≠ [])
    (hrest : ∀ n ∈ newlineIds (Branch.leavesOfAll run' ++ Context.right (f :: above)), n ∈ rest) :
    SettledBut keep led rest (Context.fill (f :: above) run') := by
  intro c n token hfill hkind hn
  have hlate : (n, token) ∉ Branch.leavesOfAll run' ++ Context.right (f :: above) := fun hmem =>
    hn (hrest n (List.mem_map.mpr ⟨_, List.mem_filter.mpr ⟨hmem, by simpa using hkind⟩, rfl⟩))
  have hleaf {inner : Context} {b : Branch} (hb : inner.fill [.leaf n token] = [b]) :
      (n, token) ∈ b.leaves := Context.mem_leaves_of_fill hb (List.mem_singleton_self _)
  cases Context.lies_of_fill hfill (fun _ _ _ heq => by cases heq) with
  | within gap run_eq fill place =>
    refine absurd (List.mem_append_left _ ?_) hlate
    rw [run_eq, Branch.leavesOfAll_append, Branch.leavesOfAll]
    exact List.mem_append_right _ (List.mem_append_left _ (hleaf fill))
  | after gap after_eq fill place =>
    exact absurd (List.mem_append_right _ (Context.leaves_subset_right gap after_eq (hleaf fill)))
      hlate
  | @before inner path above' g pre post b gap before_eq fill place =>
    have hplace := Context.fill_before fill before_eq path above' run
    rw [← gap] at hplace
    have hold := h _ n token hplace hkind hn
    have hback (run : List Branch) (hrun : run ≠ []) : post ++ path.fill run ++ g.after ≠ [] := by
      have := @Context.fill_ne_nil path run hrun
      simp [this]
    rw [place]
    rcases hold with hline | hheader
    · refine .inl (hline.reafter (hback run hne) (hback run' hne') fun b' hb' hclear => ?_)
      obtain rfl : b = b' := List.singleton_inj.mp (fill.symm.trans hb')
      have hleaves (run : List Branch) : (Branch.node g.id g.symbol
          (pre ++ [b] ++ (post ++ path.fill run ++ g.after))).leaves =
          Branch.leavesOfAll (pre ++ [b] ++ post) ++ path.left ++ Branch.leavesOfAll run ++
            (path.right ++ Branch.leavesOfAll g.after) := by
        simp only [Branch.leaves, Branch.leavesOfAll_append, Context.leavesOfAll_fill,
          List.append_assoc]
      rw [Branch.tokens_shape, hleaves] at hclear ⊢
      refine (hthins _ _).clear_eq_false (hrising.sublist (List.Sublist.map _ ?_)) hclear
      rw [← hleaves, gap, Context.fill_append, Context.fill, Context.leavesOfAll_fill, before_eq]
      simp [Branch.leavesOfAll, Branch.leaves]
    · exact .inr (hheader.congr (alike_reafter inner _ _ above'))

end Places

/-- The line pass with `rest` still to be visited. -/
structure Underway (keep : LineSet) (led : Prop) (rest : List NodeId) (t : Tree) (root : Branch)
    (others : List Branch) : Prop where
  holds : t.Holds (root :: others)
  root_id : root.id = rootId
  root_symbol : t.symbol? rootId = some .fileInput
  nodup : rest.Nodup
  labels : ∀ n ∈ rest, t.isToken n .newline = true
  sound : root.Sound (· ∈ rest)
  kempt : root.Kempt (· ∈ rest)
  rising : Rising (root.leaves.map Prod.snd)
  queued : Queued rest (newlineIds root.leaves)
  asyncs : ∀ x ∈ root.leaves, x.2.kind = .async → led
  settled : SettledBut keep led rest [root]

def Advances (keep : LineSet) (led : Prop) (rest : List NodeId) (o : Outcome Bool) : Prop :=
  ∃ done root others, o.result = .ok done ∧ Underway keep led rest o.tree root others

section Visits

variable {keep : LineSet} {led : Prop} {m : NodeId} {rest : List NodeId} {t u : Tree}
  {root : Branch} {others others' : List Branch} {f : Frame} {above : Context}
  {run run' : List Branch}

theorem Underway.fill_holds (h : Underway keep led rest t root others) {c : Context}
    (hplace : c.fill run = [root]) : t.Holds (c.fill run ++ others) := hplace ▸ h.holds

theorem Underway.fill_sound (h : Underway keep led rest t root others) {c : Context}
    (hplace : c.fill run = [root]) : ∀ b ∈ c.fill run, b.Sound (· ∈ rest) := by
  rw [hplace]
  exact List.forall_mem_singleton.mpr h.sound

theorem Underway.fill_kempt (h : Underway keep led rest t root others) {c : Context}
    (hplace : c.fill run = [root]) : ∀ b ∈ c.fill run, b.Kempt (· ∈ rest) := by
  rw [hplace]
  exact List.forall_mem_singleton.mpr h.kempt

theorem Underway.stay (h : Underway keep led (m :: rest) t root others)
    (hm : Visited keep led m [root]) : Advances keep led rest ⟨t, .ok false⟩ := by
  have hfresh := List.nodup_cons.mp h.nodup
  have hrest {n : NodeId} (hn : n ∈ rest) : n ∈ m :: rest := List.mem_cons_of_mem m hn
  have hnodup : (Branch.idsOfAll [root]).Nodup := by
    have hall := h.holds.nodup
    rw [Branch.idsOfAll, List.nodup_append] at hall
    simpa [Branch.idsOfAll] using hall.1
  exact ⟨false, root, others, rfl, { h with
    nodup := hfresh.2
    labels := fun n hn => h.labels n (hrest hn)
    sound := h.sound.mono fun n hn => hrest hn
    kempt := h.kempt.mono fun n hn => hrest hn
    queued := h.queued.next hfresh.1
    settled := h.settled.visit hnodup hm }⟩

/-- A region is folded, and the newline visited was in it or right behind it. -/
theorem Underway.fold (h : Underway keep led (m :: rest) t root others)
    (hroot : Context.fill (f :: above) run = [root])
    (hu : u.Holds (Context.fill (f :: above) run' ++ others')) (hlabels : SameLabels t u)
    (hthins : ∀ left right, Thins keep t.size (left ++ Branch.leavesOfAll run ++ right)
      (left ++ Branch.leavesOfAll run' ++ right))
    (hsound : ∀ b ∈ Context.fill (f :: above) run', b.Sound (· ∈ rest))
    (hkempt : ∀ b ∈ Context.fill (f :: above) run', b.Kempt (· ∈ rest))
    (hne : run ≠ []) (hne' : run' ≠ [])
    (hrest : ∀ n ∈ newlineIds (Branch.leavesOfAll run' ++ Context.right (f :: above)), n ∈ m :: rest)
    (hm : Visited keep led m (Context.fill (f :: above) run')) :
    Advances keep led rest ⟨u, .ok true⟩ := by
  obtain ⟨top, htop⟩ := Context.exists_fill_cons f above
  obtain ⟨root', hroot', hid'⟩ := htop run'
  obtain ⟨b, hb, hid⟩ := htop run
  obtain rfl := List.singleton_inj.mp (hroot.symm.trans hb)
  have hfresh := List.nodup_cons.mp h.nodup
  have hlater {n : NodeId} (hn : n ∈ rest) : n ∈ m :: rest := List.mem_cons_of_mem m hn
  have hall : Thins keep t.size root.leaves root'.leaves := by
    rw [Context.leaves_of_fill hroot, Context.leaves_of_fill hroot']
    exact hthins _ _
  have hleaves : Branch.leavesOfAll (Context.fill (f :: above) run) = root.leaves := by
    rw [hroot, Branch.leavesOfAll, Branch.leavesOfAll, List.append_nil]
  have hsettled := SettledBut.refill (hroot ▸ h.settled) hthins (hleaves ▸ h.rising) hne hne' hrest
  rw [hroot'] at hu hsound hkempt hm hsettled
  have hnodup : (Branch.idsOfAll [root']).Nodup := by
    have hids := hu.nodup
    rw [Branch.idsOfAll_append, List.nodup_append] at hids
    exact hids.1
  have hsize : rootId < t.size := by
    rw [← h.root_id]
    exact h.holds.lt_size (by simp [Branch.idsOfAll, Branch.id_mem_ids])
  exact ⟨true, root', others', rfl, {
    holds := hu
    root_id := by rw [hid', ← hid, h.root_id]
    root_symbol := (hlabels.2 _ hsize).1.trans h.root_symbol
    nodup := hfresh.2
    labels := fun n hn => hlabels.isToken (h.labels n (hlater hn))
    sound := hsound root' (List.mem_singleton_self _)
    kempt := hkempt root' (List.mem_singleton_self _)
    rising := hall.rising h.rising
    queued := (h.queued.next hfresh.1).sublist hall.newlineIds_sublist
    asyncs := fun x hx hasync => by
      rcases hall.kept x hx with hkind | hmem
      · rw [hasync] at hkind
        cases hkind
      · exact h.asyncs x hmem hasync
    settled := hsettled.visit hnodup hm }⟩

end Visits

end Collapse

end LineScope
