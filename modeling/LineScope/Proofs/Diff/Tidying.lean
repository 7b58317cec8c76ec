import LineScope.Proofs.Diff.Scripts

/-!
# Tidied scripts

A slide moves one operation past its neighbour, and the script leads where it led before. So the
lines that a tidied script keeps are a matching of the two versions, whichever search it came from.
-/
namespace LineScope

namespace Diff

section Slides

variable {v : Versions} {i j i' j' : Nat} {op prev next : Op} {ops before after xs ys zs : List Op}

theorem reverse_cons_append (op : Op) (before after : List Op) :
    (op :: before).reverse ++ after = before.reverse ++ op :: after := by
  simp

theorem Leads.congr_right (h : Leads v i j (xs ++ ys) i' j')
    (hys : ∀ m n, Leads v m n ys i' j' → Leads v m n zs i' j') : Leads v i j (xs ++ zs) i' j' := by
  obtain ⟨m, n, hxs, htail⟩ := leads_append.mp h
  exact hxs.append (hys m n htail)

theorem Leads.congr_cons (h : Leads v i j (op :: xs) i' j')
    (hxs : ∀ m n, Leads v m n xs i' j' → Leads v m n ys i' j') : Leads v i j (op :: ys) i' j' :=
  Leads.congr_right (show Leads v i j ([op] ++ xs) i' j' from h) hxs

theorem Leads.of_keep_zero (htag : op.tag = .keep) (hlength : op.length = 0)
    (h : Leads v i j (op :: ops) i' j') : Leads v i j ops i' j' := by
  obtain ⟨-, -, -, hrest⟩ := (leads_keep htag).mp h
  rwa [hlength] at hrest

/-- Two operations of one kind are one. -/
theorem Leads.join (htag : prev.tag = op.tag) (h : Leads v i j (prev :: op :: ops) i' j') :
    Leads v i j (prev.lengthen op.length :: ops) i' j' := by
  have htag' : (prev.lengthen op.length).tag = op.tag := htag
  cases hop : op.tag with
  | keep =>
    rw [leads_keep (htag.trans hop), leads_keep hop] at h
    obtain ⟨hi, hj, hsame, -, -, hsame', hrest⟩ := h
    refine (leads_keep (htag'.trans hop)).mpr ⟨hi, hj, ?_, ?_⟩
    · exact Versions.same_add hsame hsame'
    · rwa [Nat.add_assoc, Nat.add_assoc] at hrest
  | delete =>
    rw [leads_delete (htag.trans hop), leads_delete hop] at h
    refine (leads_delete (htag'.trans hop)).mpr ⟨h.1, ?_⟩
    exact Nat.add_assoc .. ▸ h.2.2
  | insert =>
    rw [leads_insert (htag.trans hop), leads_insert hop] at h
    refine (leads_insert (htag'.trans hop)).mpr ⟨h.1, ?_⟩
    exact Nat.add_assoc .. ▸ h.2.2

/-- A deletion and an insertion may change places. -/
theorem Leads.swap (htag : prev.tag ≠ op.tag) (hprev : prev.tag ≠ .keep) (hop : op.tag ≠ .keep)
    (h : Leads v i j (prev :: op :: ops) i' j') : Leads v i j (op :: prev :: ops) i' j' := by
  cases hkind : prev.tag with
  | keep => exact absurd hkind hprev
  | delete =>
    have hop : op.tag = .insert := by
      cases hkind' : op.tag with
      | insert => rfl
      | keep => exact absurd hkind' hop
      | delete => exact absurd (hkind.trans hkind'.symm) htag
    rw [leads_delete hkind, leads_insert hop] at h
    rw [leads_insert hop, leads_delete hkind]
    exact ⟨h.2.1, h.1, h.2.2⟩
  | insert =>
    have hop : op.tag = .delete := by
      cases hkind' : op.tag with
      | delete => rfl
      | keep => exact absurd hkind' hop
      | insert => exact absurd (hkind.trans hkind'.symm) htag
    rw [leads_insert hkind, leads_delete hop] at h
    rw [leads_delete hop, leads_insert hkind]
    exact ⟨h.2.1, h.1, h.2.2⟩

theorem leads_keepAfter {kept : Op} (htag : kept.tag = .keep)
    (h : Leads v i j (kept :: after) i' j') : Leads v i j (keepAfter kept after) i' j' := by
  cases after with
  | nil => exact h
  | cons next rest =>
    rw [keepAfter]
    split
    · next hnext =>
      have heq : (next.moveUp kept.length).lengthen kept.length = kept.lengthen next.length := by
        rw [leads_keep htag, leads_keep hnext] at h
        simp only [Op.moveUp, Op.lengthen, Op.mk.injEq, htag, hnext, true_and]
        omega
      rw [heq]
      exact h.join (htag.trans hnext.symm)
    · exact h

/-- Kept lines are added at the end of what comes before, which is listed backwards. -/
theorem leads_keepBefore {kept : Op} (htag : kept.tag = .keep)
    (h : Leads v i j (before.reverse ++ kept :: after) i' j') :
    Leads v i j ((keepBefore kept before).reverse ++ after) i' j' := by
  cases before with
  | nil => exact h
  | cons prev rest =>
    rw [reverse_cons_append] at h
    rw [keepBefore]
    split
    · next hprev =>
      rw [reverse_cons_append]
      exact h.congr_right fun m n h => h.join (hprev.trans htag.symm)
    · rw [reverse_cons_append, reverse_cons_append]
      exact h

/-- Only insertions have lines of their own to compare with kept ones. -/
theorem tag_of_newStop (hkeep : op.tag ≠ .keep) (h : op.new < op.newStop) : op.tag = .insert := by
  cases htag : op.tag with
  | keep => exact absurd htag hkeep
  | insert => rfl
  | delete => simp [Op.newStop, htag] at h

/-- An insertion behind kept lines that end with its own last ones moves up. -/
theorem Leads.slideUp (hprev : prev.tag = .keep) (hop : op.tag = .insert)
    (h : Leads v i j (prev :: op :: after) i' j') :
    Leads v i j (prev.shorten (v.commonEnd ⟨prev.old, prev.oldStop, op.new, op.newStop⟩) ::
      op.moveUp (v.commonEnd ⟨prev.old, prev.oldStop, op.new, op.newStop⟩) ::
      keepAfter ⟨.keep,
        prev.oldStop - v.commonEnd ⟨prev.old, prev.oldStop, op.new, op.newStop⟩,
        op.newStop - v.commonEnd ⟨prev.old, prev.oldStop, op.new, op.newStop⟩,
        v.commonEnd ⟨prev.old, prev.oldStop, op.new, op.newStop⟩⟩ after) i' j' := by
  have hsame := fun k => @Versions.same_commonEnd v ⟨prev.old, prev.oldStop, op.new, op.newStop⟩ k
  have hle := v.commonEnd_le ⟨prev.old, prev.oldStop, op.new, op.newStop⟩
  generalize v.commonEnd ⟨prev.old, prev.oldStop, op.new, op.newStop⟩ = run at hsame hle ⊢
  have hold : prev.oldStop = prev.old + prev.length := by simp [Op.oldStop, hprev]
  have hnew : op.newStop = op.new + op.length := by simp [Op.newStop, hop]
  simp only [Box.oldLength, Box.newLength, hold, hnew] at hle hsame ⊢
  rw [leads_keep hprev, leads_insert hop] at h
  obtain ⟨rfl, rfl, hkept, hfrom, hrest⟩ := h
  have hshort : (prev.shorten run).length = prev.length - run := rfl
  have hlength : (op.moveUp run).length = op.length := rfl
  rw [leads_keep (show (prev.shorten run).tag = .keep from hprev),
    leads_insert (show (op.moveUp run).tag = .insert from hop), hshort, hlength]
  refine ⟨rfl, rfl, fun k hk => hkept k (by omega), ?_, ?_⟩
  · simp only [Op.moveUp]
    omega
  · refine leads_keepAfter rfl ((leads_keep rfl).mpr ⟨?_, ?_, fun k hk => ?_, ?_⟩)
    · simp only
      omega
    · simp only
      omega
    · have h := hsame k hk
      rwa [show prev.old + prev.length - run + k = prev.old + (prev.length - run) + k by omega,
        show op.new + op.length - run + k = prev.new + (prev.length - run) + op.length + k by
          omega] at h
    · rwa [show prev.old + (prev.length - run) + run = prev.old + prev.length by omega,
        show prev.new + (prev.length - run) + op.length + run = prev.new + prev.length + op.length by
          omega]

/-- An insertion in front of kept lines that start with its own first ones moves down. -/
theorem Leads.slideDown (hnext : next.tag = .keep) (hop : op.tag = .insert)
    (h : Leads v i j (op :: next :: after) i' j') :
    Leads v i j (⟨.keep, next.old, op.new,
        v.commonStart ⟨next.old, next.oldStop, op.new, op.newStop⟩⟩ ::
      op.moveDown (v.commonStart ⟨next.old, next.oldStop, op.new, op.newStop⟩) ::
      (next.moveDown (v.commonStart ⟨next.old, next.oldStop, op.new, op.newStop⟩)).shorten
        (v.commonStart ⟨next.old, next.oldStop, op.new, op.newStop⟩) :: after) i' j' := by
  have hsame := fun k => @Versions.same_commonStart v ⟨next.old, next.oldStop, op.new, op.newStop⟩ k
  have hle := v.commonStart_le ⟨next.old, next.oldStop, op.new, op.newStop⟩
  generalize v.commonStart ⟨next.old, next.oldStop, op.new, op.newStop⟩ = run at hsame hle ⊢
  have hold : next.oldStop = next.old + next.length := by simp [Op.oldStop, hnext]
  have hnew : op.newStop = op.new + op.length := by simp [Op.newStop, hop]
  simp only [Box.oldLength, Box.newLength, hold, hnew] at hle hsame
  rw [leads_insert hop, leads_keep hnext] at h
  obtain ⟨rfl, rfl, hfrom, hkept, hrest⟩ := h
  have hlength : (op.moveDown run).length = op.length := rfl
  have hshort : ((next.moveDown run).shorten run).length = next.length - run := rfl
  rw [leads_keep rfl, leads_insert (show (op.moveDown run).tag = .insert from hop),
    leads_keep (show ((next.moveDown run).shorten run).tag = .keep from hnext), hlength, hshort]
  refine ⟨rfl, rfl, fun k hk => hsame k hk, rfl, rfl, ?_, fun k hk => ?_, ?_⟩
  · simp only [Op.moveDown, Op.shorten]
    omega
  · have h := hkept (run + k) (by omega)
    rwa [← Nat.add_assoc, show op.new + op.length + (run + k) = op.new + run + op.length + k by
      omega] at h
  · rwa [show next.old + run + (next.length - run) = next.old + next.length by omega,
      show op.new + run + op.length + (next.length - run) = op.new + op.length + next.length by
        omega]

def Focus.script (f : Focus) : List Op := f.before.reverse ++ f.focus :: f.after

theorem leads_slideUp (hkeep : op.tag ≠ .keep)
    (h : Leads v i j (before.reverse ++ op :: after) i' j') :
    Leads v i j (slideUp v before op after).script i' j' ∧
      (slideUp v before op after).focus.tag = op.tag := by
  fun_induction slideUp v before op after with
  | case1 op after => exact ⟨h, rfl⟩
  | case2 op after prev above htag hlength ih =>
    rw [reverse_cons_append] at h
    exact ih hkeep (h.congr_right fun m n h => h.of_keep_zero htag hlength)
  | case3 op after prev above htag hlength run hrun => exact ⟨h, rfl⟩
  | case4 op after prev above htag hlength run hrun ih =>
    rw [reverse_cons_append] at h
    have hlines : run ≤ op.newStop - op.new := (v.commonEnd_le _).2
    have hinsert : op.tag = .insert := tag_of_newStop hkeep (by omega)
    refine ih hkeep ?_
    rw [reverse_cons_append]
    exact h.congr_right fun m n h => h.slideUp htag hinsert
  | case5 op after prev above hprev htag ih =>
    rw [reverse_cons_append] at h
    obtain ⟨hleads, hfocus⟩ := ih hprev (h.congr_right fun m n h => h.join htag)
    exact ⟨hleads, hfocus.trans htag⟩
  | case6 op after prev above hprev htag ih =>
    rw [reverse_cons_append] at h
    exact ih hkeep (h.congr_right fun m n h => h.swap htag hprev hkeep)

theorem leads_slideDown (hkeep : op.tag ≠ .keep)
    (h : Leads v i j (before.reverse ++ op :: after) i' j') :
    Leads v i j (slideDown v before op after).script i' j' ∧
      (slideDown v before op after).focus.tag = op.tag := by
  fun_induction slideDown v before op after with
  | case1 before op => exact ⟨h, rfl⟩
  | case2 before op next below htag hlength ih =>
    refine ih hkeep (h.congr_right fun m n h => ?_)
    exact h.congr_cons fun m n h => h.of_keep_zero htag hlength
  | case3 before op next below htag hlength run hrun => exact ⟨h, rfl⟩
  | case4 before op next below htag hlength run hrun ih =>
    have hlines : run ≤ op.newStop - op.new := (v.commonStart_le _).2
    have hinsert : op.tag = .insert := tag_of_newStop hkeep (by omega)
    exact ih hkeep (leads_keepBefore rfl (h.congr_right fun m n h => h.slideDown htag hinsert))
  | case5 before op next below hnext htag ih =>
    exact ih hkeep (h.congr_right fun m n h => h.join htag.symm)
  | case6 before op next below hnext htag ih =>
    refine ih hkeep ?_
    rw [reverse_cons_append]
    exact h.congr_right fun m n h => h.swap (Ne.symm htag) hkeep hnext

theorem leads_slide (hkeep : op.tag ≠ .keep)
    (h : Leads v i j (before.reverse ++ op :: after) i' j') :
    Leads v i j (slide v before op after).script i' j' := by
  obtain ⟨hup, htag⟩ := leads_slideUp hkeep h
  exact (leads_slideDown (htag ▸ hkeep) hup).1

theorem leads_settle {tag : Tag} (htag : tag ≠ .keep) {steps : Nat}
    (h : Leads v i j (before.reverse ++ after) i' j') :
    Leads v i j (settle v tag steps before after) i' j' := by
  fun_induction settle v tag steps before after with
  | case1 before after => exact h
  | case2 steps before => simpa using h
  | case3 before op after steps hop slid ih =>
    refine ih ?_
    rw [reverse_cons_append]
    exact leads_slide (hop ▸ htag) h
  | case4 before op after steps hop ih =>
    refine ih ?_
    rwa [reverse_cons_append]

theorem leads_compact (h : Leads v i j ops i' j') : Leads v i j (compact v ops) i' j' :=
  leads_settle (by decide) (leads_settle (by decide) h)

end Slides

section Runs

variable {v : Versions} {i j i' j' : Nat} {ops : List Op}

/-- Runs within versions of so many lines, one after another on both sides. -/
structure InOrder (oldLines newLines : Nat) (runs : List Run) : Prop where
  within : ∀ run ∈ runs, run.old + run.length ≤ oldLines ∧ run.new + run.length ≤ newLines
  ascending : runs.Pairwise fun r s => r.old + r.length ≤ s.old ∧ r.new + r.length ≤ s.new

/-- What a matching promises: runs in order, of equal lines. -/
structure Matches (v : Versions) (runs : List Run) : Prop
    extends InOrder v.old.size v.new.size runs where
  equal : ∀ run ∈ runs, ∀ k < run.length, v.old[run.old + k]? = v.new[run.new + k]?

theorem Leads.le (h : Leads v i j ops i' j') : i ≤ i' ∧ j ≤ j' := by
  induction ops generalizing i j with
  | nil => exact ⟨Nat.le_of_eq h.1, Nat.le_of_eq h.2⟩
  | cons op ops ih =>
    obtain ⟨m, n, hm, hn, hrest⟩ := h.tail
    exact ⟨Nat.le_trans hm (ih hrest).1, Nat.le_trans hn (ih hrest).2⟩

/-- A run that follows `i` and `j` and ends by `i'` and `j'`. -/
structure Run.Between (v : Versions) (i j i' j' : Nat) (run : Run) : Prop where
  old_start : i ≤ run.old
  new_start : j ≤ run.new
  old_stop : run.old + run.length ≤ i'
  new_stop : run.new + run.length ≤ j'
  same : ∀ k < run.length, v.same (run.old + k) (run.new + k) = true

theorem Run.Between.mono {run : Run} {m n : Nat} (h : run.Between v m n i' j') (hm : i ≤ m)
    (hn : j ≤ n) : run.Between v i j i' j' :=
  { h with
    old_start := Nat.le_trans hm h.old_start
    new_start := Nat.le_trans hn h.new_start }

theorem Leads.runs (h : Leads v i j ops i' j') :
    (∀ run ∈ ops.filterMap Op.run?, run.Between v i j i' j') ∧
      (ops.filterMap Op.run?).Pairwise
        fun r s => r.old + r.length ≤ s.old ∧ r.new + r.length ≤ s.new := by
  induction ops generalizing i j with
  | nil => simp
  | cons op ops ih =>
    by_cases hkept : op.tag = .keep
    · obtain ⟨rfl, rfl, hsame, hrest⟩ := (leads_keep hkept).mp h
      obtain ⟨hbetween, hpairwise⟩ := ih hrest
      have hop : op.run? = some ⟨op.old, op.new, op.length⟩ := if_pos hkept
      rw [List.filterMap_cons_some hop, List.forall_mem_cons, List.pairwise_cons]
      refine ⟨⟨⟨Nat.le_refl _, Nat.le_refl _, hrest.le.1, hrest.le.2, hsame⟩, fun run hrun => ?_⟩,
        fun run hrun => ⟨(hbetween run hrun).old_start, (hbetween run hrun).new_start⟩, hpairwise⟩
      exact (hbetween run hrun).mono (Nat.le_add_right ..) (Nat.le_add_right ..)
    · obtain ⟨m, n, hm, hn, hrest⟩ := h.tail
      obtain ⟨hbetween, hpairwise⟩ := ih hrest
      have hop : op.run? = none := if_neg hkept
      rw [List.filterMap_cons_none hop]
      exact ⟨fun run hrun => (hbetween run hrun).mono hm hn, hpairwise⟩

/-- Every search finds a matching. -/
theorem matches_equalRuns (v : Versions) (algorithm : Algorithm) :
    Matches v (equalRuns v algorithm) := by
  obtain ⟨hbetween, hpairwise⟩ := (leads_compact (leads_script v algorithm)).runs
  refine ⟨⟨fun run hrun => ?_, hpairwise⟩, fun run hrun k hk => ?_⟩
  · exact ⟨(hbetween run hrun).old_stop, (hbetween run hrun).new_stop⟩
  · obtain ⟨line, hold, hnew⟩ := Versions.same_iff.mp ((hbetween run hrun).same k hk)
    rw [hold, hnew]

end Runs

end Diff

end LineScope
