import LineScope.Diff.Matching
import Mathlib.Data.List.Basic

/-!
# Scripts that lead somewhere

A script is good if its operations follow one another and keep equal lines only. All three searches
give a good script of the two versions, and tidying it up leaves it one. An operation may be wrong
about the side that it does not change: tidying never looks there.
-/
namespace LineScope.Diff

namespace Versions

variable {v : Versions} {i j n : Nat}

theorem same_iff : v.same i j = true ↔ ∃ line, v.old[i]? = some line ∧ v.new[j]? = some line := by
  unfold Versions.same
  split
  · next x y hx hy =>
    rw [hx, hy, beq_iff_eq]
    constructor
    · rintro rfl
      exact ⟨x, rfl, rfl⟩
    · rintro ⟨line, hx, hy⟩
      exact (Option.some.inj hx).trans (Option.some.inj hy).symm
  · next hno =>
    simp only [Bool.false_eq_true, false_iff, not_exists, not_and]
    exact fun line hx hy => hno line line hx hy

theorem same_add {a b : Nat} (ha : ∀ k < a, v.same (i + k) (j + k) = true)
    (hb : ∀ k < b, v.same (i + a + k) (j + a + k) = true) :
    ∀ k < a + b, v.same (i + k) (j + k) = true := by
  intro k hk
  rcases Nat.lt_or_ge k a with hlt | hge
  · exact ha k hlt
  · have h := hb (k - a) (by omega)
    rwa [show i + a + (k - a) = i + k by omega, show j + a + (k - a) = j + k by omega] at h

theorem same_of_lt_runAfter {k : Nat} (hk : k < v.runAfter i j n) :
    v.same (i + k) (j + k) = true := by
  induction n generalizing i j k with
  | zero => cases hk
  | succ n ih =>
    rw [runAfter] at hk
    split at hk
    · next hsame =>
      cases k with
      | zero => exact hsame
      | succ k =>
        have h := ih (Nat.lt_of_succ_lt_succ hk)
        rwa [Nat.add_right_comm, Nat.add_right_comm j] at h
    · cases hk

theorem same_of_lt_runBefore (hi : n ≤ i) (hj : n ≤ j) {k : Nat} (hk : k < v.runBefore i j n) :
    v.same (i - v.runBefore i j n + k) (j - v.runBefore i j n + k) = true := by
  induction n generalizing i j k with
  | zero => cases hk
  | succ n ih =>
    rw [runBefore] at hk ⊢
    split at hk
    · next hsame =>
      rw [if_pos hsame]
      have hle := v.runBefore_le (i - 1) (j - 1) n
      rw [Nat.add_comm _ 1, Nat.sub_add_eq, Nat.sub_add_eq]
      rcases Nat.lt_succ_iff_lt_or_eq.mp hk with hk | rfl
      · exact ih (by omega) (by omega) hk
      · rw [Nat.sub_add_cancel (by omega), Nat.sub_add_cancel (by omega)]
        exact hsame
    · cases hk

end Versions

structure Box.Ordered (box : Box) : Prop where
  old : box.oldStart ≤ box.oldStop
  new : box.newStart ≤ box.newStop

namespace Versions

variable {v : Versions} {box : Box}

theorem commonStart_le (v : Versions) (box : Box) :
    v.commonStart box ≤ box.oldLength ∧ v.commonStart box ≤ box.newLength := by
  have h := v.runAfter_le box.oldStart box.newStart (min box.oldLength box.newLength)
  exact ⟨Nat.le_trans h (Nat.min_le_left ..), Nat.le_trans h (Nat.min_le_right ..)⟩

theorem commonEnd_le (v : Versions) (box : Box) :
    v.commonEnd box ≤ box.oldLength ∧ v.commonEnd box ≤ box.newLength := by
  have h := v.runBefore_le box.oldStop box.newStop (min box.oldLength box.newLength)
  exact ⟨Nat.le_trans h (Nat.min_le_left ..), Nat.le_trans h (Nat.min_le_right ..)⟩

theorem same_commonStart {k : Nat} (hk : k < v.commonStart box) :
    v.same (box.oldStart + k) (box.newStart + k) = true := same_of_lt_runAfter hk

theorem same_commonEnd {k : Nat} (hk : k < v.commonEnd box) :
    v.same (box.oldStop - v.commonEnd box + k) (box.newStop - v.commonEnd box + k) = true := by
  refine same_of_lt_runBefore ?_ ?_ hk
  · exact Nat.le_trans (Nat.min_le_left ..) (Nat.sub_le ..)
  · exact Nat.le_trans (Nat.min_le_right ..) (Nat.sub_le ..)

end Versions

/-- The operations of a script follow one another from `i` and `j` to `i'` and `j'`. -/
def Leads (v : Versions) (i j : Nat) : List Op → Nat → Nat → Prop
  | [], i', j' => i = i' ∧ j = j'
  | op :: ops, i', j' =>
    match op.tag with
    | .keep => op.old = i ∧ op.new = j ∧ (∀ k < op.length, v.same (i + k) (j + k) = true) ∧
        Leads v (i + op.length) (j + op.length) ops i' j'
    | .delete => op.old = i ∧ Leads v (i + op.length) j ops i' j'
    | .insert => op.new = j ∧ Leads v i (j + op.length) ops i' j'

section Leads

variable {v : Versions} {i j i' j' : Nat} {op : Op} {ops xs ys : List Op}

theorem leads_keep (h : op.tag = .keep) :
    Leads v i j (op :: ops) i' j' ↔ op.old = i ∧ op.new = j ∧
      (∀ k < op.length, v.same (i + k) (j + k) = true) ∧
        Leads v (i + op.length) (j + op.length) ops i' j' := by
  rw [Leads, h]

theorem leads_delete (h : op.tag = .delete) :
    Leads v i j (op :: ops) i' j' ↔ op.old = i ∧ Leads v (i + op.length) j ops i' j' := by
  rw [Leads, h]

theorem leads_insert (h : op.tag = .insert) :
    Leads v i j (op :: ops) i' j' ↔ op.new = j ∧ Leads v i (j + op.length) ops i' j' := by
  rw [Leads, h]

theorem Leads.tail (h : Leads v i j (op :: ops) i' j') :
    ∃ m n, i ≤ m ∧ j ≤ n ∧ Leads v m n ops i' j' := by
  cases htag : op.tag with
  | keep =>
    obtain ⟨-, -, -, hrest⟩ := (leads_keep htag).mp h
    exact ⟨_, _, Nat.le_add_right .., Nat.le_add_right .., hrest⟩
  | delete => exact ⟨_, _, Nat.le_add_right .., Nat.le_refl _, ((leads_delete htag).mp h).2⟩
  | insert => exact ⟨_, _, Nat.le_refl _, Nat.le_add_right .., ((leads_insert htag).mp h).2⟩

theorem Leads.nil : Leads v i j [] i j := ⟨rfl, rfl⟩

theorem leads_append :
    Leads v i j (xs ++ ys) i' j' ↔ ∃ m n, Leads v i j xs m n ∧ Leads v m n ys i' j' := by
  induction xs generalizing i j with
  | nil =>
    constructor
    · exact fun h => ⟨i, j, .nil, h⟩
    · rintro ⟨m, n, ⟨rfl, rfl⟩, h⟩
      exact h
  | cons op xs ih =>
    rw [List.cons_append]
    cases htag : op.tag <;>
      simp only [leads_keep, leads_delete, leads_insert, htag, ih, ← exists_and_left, and_assoc]

theorem Leads.append {m n : Nat} (hxs : Leads v i j xs m n) (hys : Leads v m n ys i' j') :
    Leads v i j (xs ++ ys) i' j' := leads_append.mpr ⟨m, n, hxs, hys⟩

theorem leads_keeping {n : Nat} (h : ∀ k < n, v.same (i + k) (j + k) = true) :
    Leads v i j (Op.keeping i j n) (i + n) (j + n) := by
  unfold Op.keeping
  split
  · next hn =>
    subst hn
    exact .nil
  · exact (leads_keep rfl).mpr ⟨rfl, rfl, h, .nil⟩

theorem leads_replacing {box : Box} (h : box.Ordered) :
    Leads v box.oldStart box.newStart (Op.replacing box) box.oldStop box.newStop := by
  obtain ⟨hold, hnew⟩ := h
  have hdelete : Leads v box.oldStart box.newStart
      (if box.oldStart < box.oldStop then
        [⟨.delete, box.oldStart, box.newStart, box.oldLength⟩] else []) box.oldStop box.newStart := by
    split
    · exact (leads_delete rfl).mpr ⟨rfl, Nat.add_sub_cancel' hold, rfl⟩
    · exact ⟨by omega, rfl⟩
  refine hdelete.append ?_
  split
  · exact (leads_insert rfl).mpr ⟨rfl, rfl, Nat.add_sub_cancel' hnew⟩
  · exact ⟨rfl, by omega⟩

end Leads

section Search

variable {v : Versions} {box : Box}

theorem core_ordered (v : Versions) (h : box.Ordered) : (v.core box).Ordered := by
  have hstart := v.commonStart_le box
  have hend := v.commonEnd_le (box.dropFirst (v.commonStart box))
  obtain ⟨hold, hnew⟩ := h
  simp only [Box.oldLength, Box.newLength, Box.dropFirst] at hstart hend
  constructor <;> simp only [Versions.core, Box.dropFirst, Box.dropLast] <;> omega

/-- What comes before the core of a box, and what comes after it. -/
theorem leads_core (h : box.Ordered) {middle : List Op}
    (hmiddle : Leads v (v.core box).oldStart (v.core box).newStart middle (v.core box).oldStop
      (v.core box).newStop) :
    Leads v box.oldStart box.newStart
      (Op.keeping box.oldStart box.newStart (v.commonStart box) ++ middle ++
        Op.keeping (v.core box).oldStop (v.core box).newStop
          (v.commonEnd (box.dropFirst (v.commonStart box)))) box.oldStop box.newStop := by
  have hstart := v.commonStart_le box
  have hend := v.commonEnd_le (box.dropFirst (v.commonStart box))
  obtain ⟨hold, hnew⟩ := h
  simp only [Box.oldLength, Box.newLength, Box.dropFirst] at hstart hend
  refine ((leads_keeping fun k hk => Versions.same_commonStart hk).append hmiddle).append ?_
  have hkeep := @leads_keeping v (v.core box).oldStop (v.core box).newStop _
    fun k hk => Versions.same_commonEnd hk
  have hstop : (v.core box).oldStop + v.commonEnd (box.dropFirst (v.commonStart box)) =
      box.oldStop := Nat.sub_add_cancel (by simp only [Box.dropFirst]; omega)
  have hstop' : (v.core box).newStop + v.commonEnd (box.dropFirst (v.commonStart box)) =
      box.newStop := Nat.sub_add_cancel (by simp only [Box.dropFirst]; omega)
  rwa [hstop, hstop'] at hkeep

theorem leads_myers (v : Versions) (box : Box) (h : box.Ordered) :
    Leads v box.oldStart box.newStart (myers v box) box.oldStop box.newStop := by
  fun_induction myers v box with
  | case1 box ih ih' =>
    refine leads_core h ?_
    split
    · exact leads_replacing (core_ordered v h)
    · next i j hsplit =>
      obtain ⟨hold, hold', hnew, hnew', -⟩ := splits_of_split? hsplit
      exact (ih i j hsplit ⟨hold, hnew⟩).append (ih' i j hsplit ⟨hold', hnew'⟩)

theorem leads_walkTable (h : box.Ordered) {t : Table} {i j : Nat} (hi : i ≤ box.newLength)
    (hj : j ≤ box.oldLength) :
    Leads v (box.oldStart + j) (box.newStart + i) (walkTable v box t i j) box.oldStop
      box.newStop := by
  fun_induction walkTable v box t i j with
  | case1 i j hlt old new hsame ih =>
    refine (leads_keep rfl).mpr ⟨rfl, rfl, fun k hk => ?_, ih hlt.1 hlt.2⟩
    obtain rfl : k = 0 := Nat.lt_one_iff.mp hk
    exact hsame
  | case2 i j hlt old new _ _ ih =>
    exact (leads_delete rfl).mpr ⟨rfl, ih hi hlt.2⟩
  | case3 i j hlt old new _ _ ih =>
    exact (leads_insert rfl).mpr ⟨rfl, ih hlt.1 hj⟩
  | case4 i j _ =>
    obtain ⟨hold, hnew⟩ := h
    simp only [Box.oldLength, Box.newLength] at hi hj
    exact @leads_replacing v { box with oldStart := box.oldStart + j, newStart := box.newStart + i }
      ⟨by simp only; omega, by simp only; omega⟩

theorem whole_ordered (v : Versions) : v.whole.Ordered := ⟨Nat.zero_le _, Nat.zero_le _⟩

theorem leads_byTable (v : Versions) : Leads v 0 0 (byTable v) v.old.size v.new.size := by
  unfold byTable
  split
  · next hnew => exact (leads_delete rfl).mpr ⟨rfl, Nat.zero_add _, hnew.symm⟩
  · split
    · next hold => exact (leads_insert rfl).mpr ⟨rfl, hold.symm, Nat.zero_add _⟩
    · refine leads_core (whole_ordered v) ?_
      exact leads_walkTable (core_ordered v (whole_ordered v)) (Nat.zero_le _) (Nat.zero_le _)

end Search

section Anchors

variable {v : Versions} {i j i' j' : Nat} {ops : List Op}

def Ascends (indices : Array Nat) : Prop := indices.toList.Pairwise (· < ·)

theorem Ascends.lt {indices : Array Nat} (h : Ascends indices) {p q x y : Nat} (hpq : p < q)
    (hx : indices[p]? = some x) (hy : indices[q]? = some y) : x < y := by
  rw [← Array.getElem?_toList] at hx hy
  obtain ⟨hp, rfl⟩ := List.getElem?_eq_some_iff.mp hx
  obtain ⟨hq, rfl⟩ := List.getElem?_eq_some_iff.mp hy
  exact List.pairwise_iff_getElem.mp h p q hp hq hpq

theorem ascends_uniqueLines (lines : Array String) : Ascends (uniqueLines lines) := by
  unfold Ascends uniqueLines
  rw [Array.toList_filter, Array.toList_range]
  exact List.pairwise_lt_range.sublist List.filter_sublist

theorem lt_size_of_mem_uniqueLines {lines : Array String} {p x : Nat}
    (h : (uniqueLines lines)[p]? = some x) : x < lines.size := by
  have hmem := Array.mem_of_getElem? h
  unfold uniqueLines at hmem
  rw [Array.mem_filter, Array.mem_range] at hmem
  exact hmem.1

def keptAt (old new : Array Nat) (op : Op) : List (Nat × Nat) :=
  if op.tag = .keep then
    (List.range op.length).filterMap fun i => do
      return (← old[op.old + i]?, ← new[op.new + i]?)
  else []

theorem mem_keptAt {old new : Array Nat} {op : Op} {pair : Nat × Nat} :
    pair ∈ keptAt old new op ↔ op.tag = .keep ∧
      ∃ k < op.length, old[op.old + k]? = some pair.1 ∧ new[op.new + k]? = some pair.2 := by
  unfold keptAt
  split
  · next hkeep =>
    simp only [List.mem_filterMap, List.mem_range, hkeep, true_and]
    refine exists_congr fun k => and_congr_right fun _ => ?_
    cases old[op.old + k]? <;> cases new[op.new + k]? <;> simp [Prod.ext_iff]
  · next hkeep => simp [hkeep]

theorem pairwise_keptAt {old new : Array Nat} (hold : Ascends old) (hnew : Ascends new) (op : Op) :
    (keptAt old new op).Pairwise fun a b => a.1 < b.1 ∧ a.2 < b.2 := by
  unfold keptAt
  split
  · refine List.pairwise_lt_range.filterMap _ fun k l hkl a ha b hb => ?_
    simp only [Option.bind_eq_bind, Option.bind_eq_some_iff, Option.pure_def,
      Option.some.injEq] at ha hb
    obtain ⟨x, hx, y, hy, rfl⟩ := ha
    obtain ⟨x', hx', y', hy', rfl⟩ := hb
    exact ⟨hold.lt (by omega) hx hx', hnew.lt (by omega) hy hy'⟩
  · exact .nil

/-- What a script keeps of ascending indices ascends on both sides. -/
theorem pairwise_kept {old new : Array Nat} (hold : Ascends old) (hnew : Ascends new)
    (h : Leads v i j ops i' j') :
    (ops.flatMap (keptAt old new)).Pairwise (fun a b => a.1 < b.1 ∧ a.2 < b.2) ∧
      ∀ pair ∈ ops.flatMap (keptAt old new), ∃ p q, i ≤ p ∧ j ≤ q ∧ old[p]? = some pair.1 ∧
        new[q]? = some pair.2 := by
  induction ops generalizing i j with
  | nil => simp
  | cons op ops ih =>
    rw [List.flatMap_cons]
    by_cases htag : op.tag = .keep
    · obtain ⟨hi, hj, -, hrest⟩ := (leads_keep htag).mp h
      obtain ⟨hpairwise, hfrom⟩ := ih hrest
      have hop : ∀ pair ∈ keptAt old new op, ∃ k < op.length, old[i + k]? = some pair.1 ∧
          new[j + k]? = some pair.2 := fun pair hpair => by
        simpa only [hi, hj] using (mem_keptAt.mp hpair).2
      rw [List.pairwise_append, List.forall_mem_append]
      refine ⟨⟨pairwise_keptAt hold hnew op, hpairwise, fun a ha b hb => ?_⟩, fun a ha => ?_,
        fun b hb => ?_⟩
      · obtain ⟨k, hk, hx, hy⟩ := hop a ha
        obtain ⟨p, q, hp, hq, hx', hy'⟩ := hfrom b hb
        exact ⟨hold.lt (by omega) hx hx', hnew.lt (by omega) hy hy'⟩
      · obtain ⟨k, -, hxy⟩ := hop a ha
        exact ⟨i + k, j + k, Nat.le_add_right .., Nat.le_add_right .., hxy⟩
      · obtain ⟨p, q, hp, hq, hxy⟩ := hfrom b hb
        exact ⟨p, q, by omega, by omega, hxy⟩
    · obtain ⟨m, n, hm, hn, hrest⟩ := h.tail
      obtain ⟨hpairwise, hfrom⟩ := ih hrest
      rw [keptAt, if_neg htag, List.nil_append]
      refine ⟨hpairwise, fun b hb => ?_⟩
      obtain ⟨p, q, hp, hq, hxy⟩ := hfrom b hb
      exact ⟨p, q, by omega, by omega, hxy⟩

theorem anchors_eq (v : Versions) :
    anchors v = (myers ⟨select v.old (uniqueLines v.old), select v.new (uniqueLines v.new)⟩
      (Versions.whole ⟨select v.old (uniqueLines v.old), select v.new (uniqueLines v.new)⟩)).flatMap
        (keptAt (uniqueLines v.old) (uniqueLines v.new)) := rfl

theorem anchors_ascend (v : Versions) :
    (anchors v).Pairwise (fun a b => a.1 < b.1 ∧ a.2 < b.2) ∧
      ∀ pair ∈ anchors v, pair.1 ≤ v.old.size ∧ pair.2 ≤ v.new.size := by
  rw [anchors_eq]
  obtain ⟨hpairwise, hfrom⟩ := pairwise_kept (ascends_uniqueLines v.old) (ascends_uniqueLines v.new)
    (leads_myers _ _ (whole_ordered _))
  refine ⟨hpairwise, fun pair hpair => ?_⟩
  obtain ⟨p, q, -, -, hx, hy⟩ := hfrom pair hpair
  exact ⟨Nat.le_of_lt (lt_size_of_mem_uniqueLines hx), Nat.le_of_lt (lt_size_of_mem_uniqueLines hy)⟩

theorem leads_patienceFrom {anchors : List (Nat × Nat)}
    (hpairwise : anchors.Pairwise fun a b => a.1 < b.1 ∧ a.2 < b.2)
    (hwithin : ∀ pair ∈ anchors, pair.1 ≤ v.old.size ∧ pair.2 ≤ v.new.size)
    (hfrom : ∀ pair ∈ anchors, i ≤ pair.1 ∧ j ≤ pair.2) (hi : i ≤ v.old.size) (hj : j ≤ v.new.size) :
    Leads v i j (patienceFrom v i j anchors) v.old.size v.new.size := by
  induction anchors generalizing i j with
  | nil => exact leads_myers v ⟨i, v.old.size, j, v.new.size⟩ ⟨hi, hj⟩
  | cons pair rest ih =>
    obtain ⟨hnext, hrest⟩ := List.pairwise_cons.mp hpairwise
    obtain ⟨⟨hold, hnew⟩, -⟩ := List.forall_mem_cons.mp hfrom
    obtain ⟨⟨hold', hnew'⟩, hwithin'⟩ := List.forall_mem_cons.mp hwithin
    have hrun := v.commonStart_le ⟨i, pair.1, j, pair.2⟩
    simp only [Box.oldLength, Box.newLength] at hrun
    have hstretch := leads_myers v ⟨i + v.commonStart ⟨i, pair.1, j, pair.2⟩, pair.1,
      j + v.commonStart ⟨i, pair.1, j, pair.2⟩, pair.2⟩ ⟨by simp only; omega, by simp only; omega⟩
    have hkeep := leads_keeping fun k hk => @Versions.same_commonStart v ⟨i, pair.1, j, pair.2⟩ k hk
    refine (hkeep.append hstretch).append (ih hrest hwithin' (fun a ha => ?_) hold' hnew')
    exact ⟨Nat.le_of_lt (hnext a ha).1, Nat.le_of_lt (hnext a ha).2⟩

theorem leads_script (v : Versions) (algorithm : Algorithm) :
    Leads v 0 0 (script v algorithm) v.old.size v.new.size := by
  cases algorithm with
  | myers => exact leads_myers v v.whole (whole_ordered v)
  | patience =>
    obtain ⟨hpairwise, hwithin⟩ := anchors_ascend v
    exact leads_patienceFrom hpairwise hwithin (fun _ _ => ⟨Nat.zero_le _, Nat.zero_le _⟩)
      (Nat.zero_le _) (Nat.zero_le _)
  | lcs => exact leads_byTable v

end Anchors

end LineScope.Diff
