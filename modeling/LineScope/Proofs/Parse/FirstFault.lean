import LineScope.Proofs.Parse.RoundTrip

/-!
# The first fault

The search for a fault looks only below nodes that are flagged, and stops at a node that is an error
or missing. With flags as a parser sets them, nothing is lost that way: outside of errors, a node
that is not flagged has no fault at or below it, and a flagged one has. So what is found is the
first fault in order.
-/
namespace LineScope.Parse

/-- A node that is an error, or that was expected and is missing. -/
def Mark.isFault (mark : Mark) : Bool := mark.isError || mark.isMissing

/-- The flags of a report fit together. Below an error, an error without children need not be
flagged. -/
inductive Report.Flagged : Bool → Report → Prop
  | node {withinError : Bool} {mark : Mark} {children : List Report}
      (missing : mark.isMissing = true → mark.hasError = true)
      (error : mark.isError = true →
        mark.hasError = true ∨ (children = [] ∧ withinError = true))
      (above : (∃ m ∈ marksOfAll children, m.hasError = true) → mark.hasError = true)
      (cause : mark.hasError = true →
        ∃ m ∈ (Report.node mark children).marks, m.isFault = true)
      (below : ∀ report ∈ children, Flagged (withinError || mark.isError) report) :
      Flagged withinError (.node mark children)

/-- Rows as a parser counts them: the line feeds in front of a node. -/
def Report.CountsRows (text : String) (row : Mark → Nat) (report : Report) : Prop :=
  ∀ m ∈ report.marks, row m = ((Text.encode text.toList).take m.start).count 10

namespace Report

variable {report : Report} {reports : List Report} {withinError : Bool}

theorem mark_mem_marks (report : Report) : report.mark ∈ report.marks := by
  cases report
  simp [mark, marks]

theorem marksOfAll_eq_flatMap (reports : List Report) :
    marksOfAll reports = reports.flatMap marks := by
  induction reports with
  | nil => rfl
  | cons report rest ih => rw [marksOfAll, ih, List.flatMap_cons]

/-- Outside of errors there is no fault without a flag. -/
theorem Flagged.isFault_eq_false (h : report.Flagged withinError) (houtside : withinError = false)
    (hclean : report.mark.hasError = false) : ∀ m ∈ report.marks, m.isFault = false := by
  induction h with
  | @node withinError mark children missing error above cause below ih =>
    have hmark : mark.hasError = false := hclean
    have hmissing : mark.isMissing = false := by
      rw [Bool.eq_false_iff]
      intro hm
      rw [missing hm] at hmark
      cases hmark
    have herror : mark.isError = false := by
      rw [Bool.eq_false_iff]
      intro he
      rcases error he with hflag | ⟨-, hwithin⟩
      · rw [hflag] at hmark
        cases hmark
      · rw [houtside] at hwithin
        cases hwithin
    intro m hm
    rw [marks] at hm
    rcases List.mem_cons.mp hm with rfl | hm
    · simp [Mark.isFault, herror, hmissing]
    · rw [marksOfAll_eq_flatMap] at hm above
      obtain ⟨child, hchild, hmchild⟩ := List.mem_flatMap.mp hm
      refine ih child hchild (by simp [houtside, herror]) ?_ m hmchild
      rw [Bool.eq_false_iff]
      intro hflag
      have hmem := List.mem_flatMap.mpr ⟨child, hchild, child.mark_mem_marks⟩
      rw [above ⟨child.mark, hmem, hflag⟩] at hmark
      cases hmark

/-- Outside of errors the flag tells whether there is a fault. -/
theorem Flagged.hasError_iff (h : report.Flagged false) :
    report.mark.hasError = true ↔ ∃ m ∈ report.marks, m.isFault = true := by
  constructor
  · cases h with
    | node missing error above cause below => exact cause
  · rintro ⟨m, hm, hfault⟩
    by_contra hclean
    rw [Bool.not_eq_true] at hclean
    rw [h.isFault_eq_false rfl hclean m hm] at hfault
    cases hfault

theorem Flagged.exists_find? (h : report.Flagged false) (hflag : report.mark.hasError = true) :
    ∃ m, report.marks.find? Mark.isFault = some m :=
  Option.isSome_iff_exists.mp (List.find?_isSome.mpr (h.hasError_iff.mp hflag))

theorem Flagged.find?_eq_none (h : report.Flagged false) (hclean : ¬ report.mark.hasError = true) :
    report.marks.find? Mark.isFault = none := by
  rw [List.find?_eq_none]
  exact fun m hm hfault => hclean (h.hasError_iff.mpr ⟨m, hm, hfault⟩)

/-- No fault is lost with the reports that the search passes over. -/
theorem firstFaultAmong?_eq (hflagged : ∀ report ∈ reports, report.Flagged false)
    (hfirst : ∀ report ∈ reports, report.firstFault? = report.marks.find? Mark.isFault) :
    firstFaultAmong? reports = (marksOfAll reports).find? Mark.isFault := by
  induction reports with
  | nil => simp [firstFaultAmong?, marksOfAll]
  | cons report rest ih =>
    have hrest := ih (fun r hr => hflagged r (by simp [hr])) fun r hr => hfirst r (by simp [hr])
    have hhead := hflagged report (by simp)
    rw [firstFaultAmong?, marksOfAll, List.find?_append]
    split
    · next hflag =>
      obtain ⟨m, hm⟩ := hhead.exists_find? hflag
      rw [hfirst report (by simp), hm]
      rfl
    · next hclean => rw [hhead.find?_eq_none hclean, hrest, Option.none_or]

/-- The search finds the first fault in order. -/
theorem Flagged.firstFault?_eq (h : report.Flagged withinError) (houtside : withinError = false) :
    report.firstFault? = report.marks.find? Mark.isFault := by
  induction h with
  | @node withinError mark children missing error above cause below ih =>
    rw [firstFault?, marks, ← Mark.isFault]
    split
    · next hfault => rw [List.find?_cons_of_pos hfault]
    · next hfault =>
      have hwithin : (withinError || mark.isError) = false := by
        rw [Mark.isFault, Bool.or_eq_true, not_or] at hfault
        rw [houtside, Bool.false_or, Bool.eq_false_iff]
        exact hfault.1
      rw [List.find?_cons_of_neg hfault, firstFaultAmong?_eq]
      · exact fun child hchild => hwithin ▸ below child hchild
      · exact fun child hchild => ih child hchild hwithin

/-- Whatever the rows, the fault is on the row of the first node in order that is one. -/
theorem Flagged.fault?_eq (h : report.Flagged false) (row : Mark → Nat) :
    report.fault? row = (report.marks.find? Mark.isFault).map fun m => ⟨row m + 1⟩ := by
  rw [fault?, h.firstFault?_eq rfl]
  split
  · next hflag =>
    obtain ⟨m, hm⟩ := h.exists_find? hflag
    rw [hm]
    rfl
  · next hclean =>
    rw [h.find?_eq_none hclean]
    rfl

theorem countsRows_row (text : String) (report : Report) :
    report.CountsRows text (Mark.row text.toList) := fun _ _ => rfl

/-- With rows as a parser counts them, the fault is on the line on which the first one starts. -/
theorem Flagged.fault?_eq_some_iff {text : String} {row : Mark → Nat} (h : report.Flagged false)
    (hrow : report.CountsRows text row) (fault : Fault) :
    report.fault? row = some fault ↔ ∃ m, report.marks.find? Mark.isFault = some m ∧
      fault.line = 1 + ((Text.encode text.toList).take m.start).count 10 := by
  rw [h.fault?_eq, Option.map_eq_some_iff]
  refine exists_congr fun m => and_congr_right fun hm => ?_
  rw [hrow m (List.mem_of_find?_eq_some hm), Nat.add_comm, Fault.mk.injEq, eq_comm]

end Report

theorem tree_eq_error_iff {text : String} {report : Report} {fault : Fault} :
    tree text report = .error fault ↔ report.fault? (Mark.row text.toList) = some fault := by
  unfold tree
  split
  · next found hfound => simp [hfound]
  · next hnone => simp [hnone]

/-- A text is refused if and only if its report has a fault, and then for the line on which the
first one in order starts: one more than the row of that node, for any rows that count line feeds.
The search in a flagged report never comes back without one. -/
theorem tree_first_fault (text : String) (report : Report) (h : report.Flagged false) :
    (∀ row, report.CountsRows text row → ∀ fault, report.fault? row = some fault ↔
        ∃ m, report.marks.find? Mark.isFault = some m ∧
          fault.line = 1 + ((Text.encode text.toList).take m.start).count 10) ∧
      ((∃ fault, tree text report = .error fault) ↔ ∃ m ∈ report.marks, m.isFault = true) ∧
      (∀ fault, tree text report = .error fault ↔
        ∃ m, report.marks.find? Mark.isFault = some m ∧
          fault.line = 1 + ((Text.encode text.toList).take m.start).count 10) ∧
      (report.mark.hasError = true → report.firstFault? ≠ none) := by
  have hline (fault : Fault) : tree text report = .error fault ↔
      ∃ m, report.marks.find? Mark.isFault = some m ∧
        fault.line = 1 + ((Text.encode text.toList).take m.start).count 10 :=
    tree_eq_error_iff.trans (h.fault?_eq_some_iff (report.countsRows_row text) fault)
  refine ⟨fun row hrow => h.fault?_eq_some_iff hrow, ?_, hline, fun hflag => ?_⟩
  · rw [← h.hasError_iff]
    constructor
    · rintro ⟨fault, herror⟩
      obtain ⟨m, hm, -⟩ := (hline fault).mp herror
      exact h.hasError_iff.mpr ⟨m, List.mem_of_find?_eq_some hm, List.find?_some hm⟩
    · intro hflag
      obtain ⟨m, hm⟩ := h.exists_find? hflag
      exact ⟨⟨_⟩, (hline _).mpr ⟨m, hm, rfl⟩⟩
  · obtain ⟨m, hm⟩ := h.exists_find? hflag
    rw [h.firstFault?_eq rfl, hm]
    exact Option.some_ne_none m

/-- An error on the third line with an unflagged error below it, and something missing behind. -/
def strayParen : Report :=
  .node ⟨"module", 0, 9, false, false, false, true⟩
    [.node ⟨"comment", 0, 2, true, false, false, false⟩ [],
      .node ⟨"ERROR", 4, 7, false, true, false, true⟩
        [.node ⟨"(", 4, 5, false, false, false, false⟩ [],
          .node ⟨"ERROR", 5, 6, false, true, false, false⟩ []],
      .node ⟨"identifier", 9, 9, false, false, true, true⟩ []]

theorem strayParen_flagged : strayParen.Flagged false := by
  refine .node (by decide) (by decide) (by decide) (by decide) ?_
  simp only [List.forall_mem_cons, List.not_mem_nil, false_imp_iff, implies_true, and_true]
  refine ⟨.node (by decide) (by decide) (by decide) (by decide) (by simp), ?_,
    .node (by decide) (by decide) (by decide) (by decide) (by simp)⟩
  refine .node (by decide) (by decide) (by decide) (by decide) ?_
  simp only [List.forall_mem_cons, List.not_mem_nil, false_imp_iff, implies_true, and_true]
  exact ⟨.node (by decide) (by decide) (by decide) (by decide) (by simp),
    .node (by decide) (by decide) (by decide) (by decide) (by simp)⟩

theorem strayParen_first_fault :
    let row (m : Mark) := if m.start < 4 then 0 else if m.start < 8 then 2 else 3
    strayParen.Flagged false ∧ strayParen.CountsRows "#a\n\n(?)\nb" row ∧
      strayParen.fault? row = some ⟨3⟩ ∧
      tree "#a\n\n(?)\nb" strayParen = .error ⟨3⟩ ∧ strayParen.firstFault? ≠ none := by
  intro row
  obtain ⟨hrows, -, hline, hfound⟩ := tree_first_fault "#a\n\n(?)\nb" strayParen strayParen_flagged
  have hcounts : strayParen.CountsRows "#a\n\n(?)\nb" row := by
    unfold Report.CountsRows
    decide
  have herror : strayParen.marks.find? Mark.isFault =
      some ⟨"ERROR", 4, 7, false, true, false, true⟩ := by decide
  exact ⟨strayParen_flagged, hcounts, (hrows row hcounts ⟨3⟩).mpr ⟨_, herror, by decide⟩,
    (hline ⟨3⟩).mpr ⟨_, herror, by decide⟩, hfound rfl⟩

end LineScope.Parse
