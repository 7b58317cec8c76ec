import LineScope.Proofs.Relocation.Order

/-!
# Nothing changed

A script that keeps all lines, in however many pieces, makes one unchanged segment of them, and
carrying across that one leaves a range where it is. Comparing a text with itself gives such a
script whatever the algorithm: the lines that two equal versions have in common at the start are all
of them, and between anchors it is the same again.
-/
namespace LineScope

namespace Diff

/-- The operations keep the lines from one index up to another, in order, and change nothing. -/
def Copies (i n : Nat) : List Op → Prop
  | [] => i = n
  | op :: ops => op.tag = .keep ∧ op.old = i ∧ op.new = i ∧ Copies (i + op.length) n ops

section Copies

variable {v : Versions} {i m n : Nat} {ops xs ys : List Op}

theorem Copies.le (h : Copies i n ops) : i ≤ n := by
  induction ops generalizing i with
  | nil => exact Nat.le_of_eq h
  | cons op ops ih => exact (Nat.le_add_right ..).trans (ih h.2.2.2)

theorem Copies.keep (h : Copies i n ops) : ∀ op ∈ ops, op.tag = .keep := by
  induction ops generalizing i with
  | nil => simp
  | cons op ops ih => exact List.forall_mem_cons.mpr ⟨h.1, ih h.2.2.2⟩

theorem Copies.append (hxs : Copies i m xs) (hys : Copies m n ys) : Copies i n (xs ++ ys) := by
  induction xs generalizing i with
  | nil => exact hxs ▸ hys
  | cons op xs ih => exact ⟨hxs.1, hxs.2.1, hxs.2.2.1, ih hxs.2.2.2⟩

theorem copies_keeping (h : i ≤ n) : Copies i n (Op.keeping i i (n - i)) := by
  unfold Op.keeping
  split
  · exact (by omega : i = n)
  · exact ⟨rfl, rfl, rfl, Nat.add_sub_cancel' h⟩

theorem Copies.joinRuns (h : Copies i n ops) :
    Segment.joinRuns ((ops.filterMap Op.run?).filter fun run => 0 < run.length) =
      if i = n then [] else [⟨i, i, n - i⟩] := by
  induction ops generalizing i with
  | nil => exact (if_pos h).symm
  | cons op ops ih =>
    obtain ⟨htag, hold, hnew, hrest⟩ := h
    have hle := hrest.le
    have hop : op.run? = some ⟨i, i, op.length⟩ := by rw [Op.run?, if_pos htag, hold, hnew]
    rw [List.filterMap_cons_some hop]
    by_cases hlength : op.length = 0
    · rw [List.filter_cons_of_neg (by simp [hlength]), ih hrest, hlength, Nat.add_zero]
    · rw [List.filter_cons_of_pos (by simp only [decide_eq_true_eq]; omega), Segment.joinRuns,
        ih hrest, if_neg (show ¬ i = n by omega)]
      by_cases hend : i + op.length = n
      · have hlast : op.length = n - i := by omega
        rw [if_pos hend, hlast]
      · have hjoined : op.length + (n - (i + op.length)) = n - i := by omega
        rw [if_neg hend]
        simp only [and_self, if_true, hjoined]

theorem settle_of_forall_ne {tag : Tag} {steps : Nat} {before after : List Op}
    (h : ∀ op ∈ after, op.tag ≠ tag) :
    settle v tag steps before after = before.reverse ++ after := by
  fun_induction settle v tag steps before after with
  | case1 before after => rfl
  | case2 steps before => simp
  | case3 steps before op after hop slid ih => exact absurd hop (h op List.mem_cons_self)
  | case4 steps before op after hop ih =>
    rw [ih fun op hop => h op (List.mem_cons_of_mem _ hop), reverse_cons_append]

theorem compact_of_keep (h : ∀ op ∈ ops, op.tag = .keep) : compact v ops = ops := by
  have hne {tag : Tag} (htag : tag ≠ .keep) : ∀ op ∈ ops, op.tag ≠ tag := fun op hop heq =>
    htag (heq ▸ h op hop)
  rw [compact, settle_of_forall_ne (hne (by decide)), List.reverse_nil, List.nil_append,
    settle_of_forall_ne (hne (by decide)), List.reverse_nil, List.nil_append]

end Copies

section Self

variable {v : Versions} {i n : Nat}

theorem Versions.same_self (hv : v.new = v.old) (hi : i < v.old.size) : v.same i i = true :=
  Versions.same_iff.mpr ⟨v.old[i], by simp [hi], by simp [hv, hi]⟩

theorem Versions.runAfter_self (hv : v.new = v.old) (h : i + n ≤ v.old.size) :
    v.runAfter i i n = n := by
  induction n generalizing i with
  | zero => rfl
  | succ n ih => rw [runAfter, if_pos (v.same_self hv (by omega)), ih (by omega)]

theorem Versions.commonStart_self (hv : v.new = v.old) (hle : i ≤ n) (hn : n ≤ v.old.size) :
    v.commonStart ⟨i, n, i, n⟩ = n - i := by
  rw [commonStart, Box.oldLength, Box.newLength, Nat.min_self]
  exact v.runAfter_self hv (by simp only; omega)

/-- Nothing is left between the common start and the common end. -/
theorem Versions.core_self (hv : v.new = v.old) (hle : i ≤ n) (hn : n ≤ v.old.size) :
    v.core ⟨i, n, i, n⟩ = ⟨n, n, n, n⟩ ∧
      v.commonEnd (Box.dropFirst ⟨i, n, i, n⟩ (v.commonStart ⟨i, n, i, n⟩)) = 0 := by
  have hstart := v.commonStart_self hv hle hn
  have hend := (v.commonEnd_le (Box.dropFirst ⟨i, n, i, n⟩ (v.commonStart ⟨i, n, i, n⟩))).1
  simp only [hstart, Box.dropFirst, Box.oldLength] at hend
  have hzero : v.commonEnd (Box.dropFirst ⟨i, n, i, n⟩ (v.commonStart ⟨i, n, i, n⟩)) = 0 := by
    simp only [hstart, Box.dropFirst]
    omega
  refine ⟨?_, hzero⟩
  rw [core, hzero, hstart]
  simp only [Box.dropFirst, Box.dropLast, Nat.add_sub_cancel' hle, Nat.sub_zero]

theorem replacing_empty : Op.replacing ⟨n, n, n, n⟩ = [] := by simp [Op.replacing]

theorem myers_self (hv : v.new = v.old) (hle : i ≤ n) (hn : n ≤ v.old.size) :
    myers v ⟨i, n, i, n⟩ = Op.keeping i i (n - i) := by
  obtain ⟨hcore, hend⟩ := v.core_self hv hle hn
  have hzero : Op.keeping n n 0 = [] := rfl
  rw [myers]
  split
  · rw [hcore, hend, hzero, replacing_empty, v.commonStart_self hv hle hn, List.append_nil,
      List.append_nil]
  · next a b hsplit =>
    have hsplits := splits_of_split? hsplit
    rw [hcore] at hsplits
    obtain ⟨-, -, -, -, hlt, hlt'⟩ := hsplits
    simp only at hlt hlt'
    omega

theorem anchors_self (hv : v.new = v.old) : ∀ pair ∈ anchors v, pair.1 = pair.2 := by
  intro pair hpair
  rw [anchors_eq, hv, Versions.whole, myers_self rfl (Nat.zero_le _) (Nat.le_refl _)] at hpair
  obtain ⟨op, hop, hpair⟩ := List.mem_flatMap.mp hpair
  have hsame : op.new = op.old := by
    unfold Op.keeping at hop
    split at hop
    · cases hop
    · rw [List.mem_singleton.mp hop]
  obtain ⟨-, k, -, hx, hy⟩ := mem_keptAt.mp hpair
  rw [hsame, hx] at hy
  exact Option.some.inj hy

theorem copies_patienceFrom (hv : v.new = v.old) {anchors : List (Nat × Nat)}
    (hself : ∀ pair ∈ anchors, pair.1 = pair.2)
    (hpairwise : anchors.Pairwise fun a b => a.1 < b.1 ∧ a.2 < b.2)
    (hwithin : ∀ pair ∈ anchors, pair.1 ≤ v.old.size) (hfrom : ∀ pair ∈ anchors, i ≤ pair.1)
    (hi : i ≤ v.old.size) : Copies i v.old.size (patienceFrom v i i anchors) := by
  induction anchors generalizing i with
  | nil =>
    rw [patienceFrom, hv, myers_self hv hi (Nat.le_refl _)]
    exact copies_keeping hi
  | cons pair rest ih =>
    obtain ⟨a, b⟩ := pair
    obtain ⟨hab, hrest⟩ := List.forall_mem_cons.mp hself
    obtain ⟨hnext, hascend⟩ := List.pairwise_cons.mp hpairwise
    obtain ⟨ha, hwithin'⟩ := List.forall_mem_cons.mp hwithin
    obtain rfl : a = b := hab
    have hle : i ≤ a := hfrom _ List.mem_cons_self
    -- all lines up to the anchor are common, and the search between has nothing left to do
    have hmiddle : myers v ⟨i + (a - i), a, i + (a - i), a⟩ = [] := by
      rw [Nat.add_sub_cancel' hle, myers_self hv (Nat.le_refl _) ha, Nat.sub_self]
      rfl
    rw [patienceFrom, v.commonStart_self hv hle ha]
    simp only [hmiddle, List.append_nil]
    exact (copies_keeping hle).append
      (ih hrest hascend hwithin' (fun pair hpair => Nat.le_of_lt (hnext pair hpair).1) ha)

theorem walkTable_empty (t : Table) : walkTable v ⟨n, n, n, n⟩ t 0 0 = [] := by
  rw [walkTable, dif_neg (by simp [Box.newLength])]
  exact replacing_empty

theorem byTable_self (hv : v.new = v.old) (hsome : v.old.size ≠ 0) :
    byTable v = Op.keeping 0 0 (v.old.size - 0) := by
  obtain ⟨hcore, hend⟩ := v.core_self hv (Nat.zero_le _) (Nat.le_refl v.old.size)
  have hwhole : v.whole = ⟨0, v.old.size, 0, v.old.size⟩ := by rw [Versions.whole, hv]
  rw [byTable, hv, if_neg hsome, if_neg hsome, hwhole]
  change _ ++ walkTable v (v.core ⟨0, v.old.size, 0, v.old.size⟩) _ 0 0 ++
    Op.keeping (v.core ⟨0, v.old.size, 0, v.old.size⟩).oldStop _ _ = _
  rw [hcore, walkTable_empty, hend, v.commonStart_self hv (Nat.zero_le _) (Nat.le_refl _),
    List.append_nil]
  exact List.append_nil _

theorem copies_script (hv : v.new = v.old) (hsome : v.old.size ≠ 0) (algorithm : Algorithm) :
    Copies 0 v.old.size (script v algorithm) := by
  cases algorithm with
  | myers =>
    rw [script, Versions.whole, hv, myers_self hv (Nat.zero_le _) (Nat.le_refl _)]
    exact copies_keeping (Nat.zero_le _)
  | patience =>
    obtain ⟨hpairwise, hwithin⟩ := anchors_ascend v
    exact copies_patienceFrom hv (anchors_self hv) hpairwise
      (fun pair hpair => (hwithin pair hpair).1) (fun _ _ => Nat.zero_le _) (Nat.zero_le _)
  | lcs =>
    rw [script, byTable_self hv hsome]
    exact copies_keeping (Nat.zero_le _)

end Self

end Diff

open Diff

namespace Segment

def unchanged (n : Nat) : List Segment := if n = 0 then [] else [⟨⟨1, n⟩, ⟨1, n⟩, false⟩]

theorem ofRuns_copies {n : Nat} {ops : List Op} (h : Copies 0 n ops) :
    ofRuns n n (ops.filterMap Op.run?) = unchanged n := by
  rw [ofRuns, h.joinRuns, unchanged]
  split
  · next hzero =>
    rw [← hzero]
    rfl
  · next hsome =>
    rw [if_neg (Ne.symm hsome)]
    simp [between, gap_eq, equal]

end Segment

namespace Relocation

variable {n : Nat} {r : LineRange} {ranges : List LineRange}

theorem carry_unchanged_singleton (hvalid : r.start ≤ r.stop) :
    carry (Segment.unchanged n) [r] = if 1 ≤ r.start ∧ r.stop ≤ n then [r] else [] := by
  by_cases hzero : n = 0
  · rw [Segment.unchanged, if_pos hzero, if_neg (by omega)]
    rfl
  rw [Segment.unchanged, if_neg hzero]
  by_cases hwithin : 1 ≤ r.start ∧ r.stop ≤ n
  · rw [if_pos hwithin]
    have hstart : LineRange.contains ⟨1, n⟩ r.start = true :=
      LineRange.contains_iff.mpr ⟨hwithin.1, hvalid.trans hwithin.2⟩
    have hstop : LineRange.contains ⟨1, n⟩ r.stop = true :=
      LineRange.contains_iff.mpr ⟨hwithin.1.trans hvalid, hwithin.2⟩
    have hmoved : (⟨r.start - 1 + 1, r.stop - 1 + 1⟩ : LineRange) = r := by
      rw [Nat.sub_add_cancel hwithin.1, Nat.sub_add_cancel (hwithin.1.trans hvalid)]
    simp [carry, hstart, hstop, newStart, newStop, hmoved, LineRange.isValid_iff.mpr hvalid]
  · rw [if_neg hwithin]
    apply carry_singleton_eq_nil
    simp only [List.forall_mem_singleton, LineRange.contains, Bool.and_eq_false_iff,
      decide_eq_false_iff_not]
    omega

/-- Across unchanged lines every range within them stays, and the others are dropped. -/
theorem carry_unchanged (hvalid : ∀ r ∈ ranges, r.start ≤ r.stop)
    (hsorted : ranges.Pairwise fun r s => r.start ≤ s.start) :
    carry (Segment.unchanged n) ranges = ranges.filter fun r => 1 ≤ r.start ∧ r.stop ≤ n := by
  have hsegments : (Segment.unchanged n).Pairwise fun p q => p.old.stop < q.old.start := by
    unfold Segment.unchanged
    split <;> simp
  rw [carry_eq_flatMap hsegments hsorted]
  induction ranges with
  | nil => rfl
  | cons r rest ih =>
    obtain ⟨hr, hrest⟩ := List.forall_mem_cons.mp hvalid
    rw [List.flatMap_cons, carry_unchanged_singleton hr, ih hrest hsorted.tail, List.filter_cons]
    split <;> simp_all

end Relocation

theorem segments_self (text : String) (algorithm : Algorithm) :
    segments text text algorithm = Segment.unchanged (Text.lines text).length := by
  have hsize : (Versions.ofTexts text text).old.size = (Text.lines text).length := by
    simp [Versions.ofTexts]
  by_cases hzero : (Text.lines text).length = 0
  · rw [Segment.unchanged, if_pos hzero]
    exact (segments_tile text text algorithm).eq_nil_iff.mpr
      ⟨hsize.trans hzero, hsize.trans hzero⟩
  · have hcopies := copies_script (v := .ofTexts text text) rfl (hsize.trans_ne hzero) algorithm
    rw [← compact_of_keep hcopies.keep (v := .ofTexts text text), hsize] at hcopies
    exact Segment.ofRuns_copies hcopies

/-- Between a text and itself nothing moves. A script that keeps all lines makes one unchanged
segment of them, in whatever pieces it keeps them, and every algorithm comes to that segment; the
ranges that lie within the text come back in order, each as often as it was given. -/
theorem relocate_self (ranges : List LineRange) (text : String) (algorithm : Algorithm) :
    (∀ ops, Copies 0 (Text.lines text).length ops →
      Segment.ofRuns (Text.lines text).length (Text.lines text).length (ops.filterMap Op.run?) =
          Segment.unchanged (Text.lines text).length ∧
        Relocation.carry (Segment.ofRuns (Text.lines text).length (Text.lines text).length
            (ops.filterMap Op.run?)) (LineRange.sort (ranges.filter LineRange.isValid)) =
          relocate ranges text text algorithm) ∧
      segments text text algorithm = Segment.unchanged (Text.lines text).length ∧
      (relocate ranges text text algorithm).Perm (ranges.filter fun r =>
        1 ≤ r.start ∧ r.start ≤ r.stop ∧ r.stop ≤ (Text.lines text).length) ∧
      (relocate ranges text text algorithm).Pairwise fun r s => r.le s = true := by
  have hsegments := segments_self text algorithm
  have hcarried : relocate ranges text text algorithm =
      (LineRange.sort (ranges.filter LineRange.isValid)).filter fun r =>
        1 ≤ r.start ∧ r.stop ≤ (Text.lines text).length := by
    rw [relocate, hsegments]
    refine Relocation.carry_unchanged (fun r hr => ?_) ?_
    · exact LineRange.isValid_iff.mp (isValid_of_mem_sort hr).2
    · exact (LineRange.pairwise_sort _).imp LineRange.start_le_of_le
  refine ⟨fun ops hops => ?_, hsegments, ?_, ?_⟩
  · rw [Segment.ofRuns_copies hops, relocate, hsegments]
    exact ⟨rfl, rfl⟩
  · rw [hcarried]
    refine ((LineRange.sort_perm _).filter _).trans (List.Perm.of_eq ?_)
    rw [List.filter_filter]
    refine List.filter_congr fun r _ => ?_
    simp only [LineRange.isValid, ← Bool.decide_and, decide_eq_decide]
    omega
  · rw [hcarried]
    exact (LineRange.pairwise_sort _).filter _

/-- Three lines kept in pieces, one of them empty, and ranges of which one was given twice and some
reach outside. -/
theorem relocate_self_pieces :
    Copies 0 3 [⟨.keep, 0, 0, 1⟩, ⟨.keep, 1, 1, 0⟩, ⟨.keep, 1, 1, 2⟩] ∧
      Segment.ofRuns 3 3
          ([⟨.keep, 0, 0, 1⟩, ⟨.keep, 1, 1, 0⟩, ⟨.keep, 1, 1, 2⟩].filterMap Op.run?) =
        [⟨⟨1, 3⟩, ⟨1, 3⟩, false⟩] ∧
      (relocate [⟨2, 3⟩, ⟨1, 4⟩, ⟨0, 1⟩, ⟨1, 3⟩, ⟨2, 3⟩, ⟨3, 2⟩] "a\nb\nc" "a\nb\nc" .lcs).Perm
        [⟨1, 3⟩, ⟨2, 3⟩, ⟨2, 3⟩] := by
  have hcopies : Copies 0 3 [⟨.keep, 0, 0, 1⟩, ⟨.keep, 1, 1, 0⟩, ⟨.keep, 1, 1, 2⟩] :=
    ⟨rfl, rfl, rfl, rfl, rfl, rfl, rfl, rfl, rfl, rfl⟩
  obtain ⟨hpieces, -, hperm, -⟩ := relocate_self
    [⟨2, 3⟩, ⟨1, 4⟩, ⟨0, 1⟩, ⟨1, 3⟩, ⟨2, 3⟩, ⟨3, 2⟩] "a\nb\nc" .lcs
  exact ⟨hcopies, (hpieces _ hcopies).1, hperm.trans (by decide +kernel)⟩

end LineScope
