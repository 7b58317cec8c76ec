import LineScope.Proofs.Collapse.Trimming

/-!
# Clauses under the line pass

A block is swept clause by clause. `Collapse.Stage` says what has become of the clauses so far: the
header of a suite takes with it all since the suite before, and an `async` in front of the block goes
with the first header or stays for good.
-/
namespace LineScope

namespace Collapse

open LineScope.Tree Grammar

section Clauses

/-- A kept line that is neither before the given token nor after the end of any of the others. -/
def Pinned (keep : LineSet) (key : Leaf) (rest : List Leaf) : Prop :=
  ∃ line, keep.contains line = true ∧ key.line ≤ line ∧ ∀ x ∈ rest, line ≤ x.endLine

theorem pinned_of_not_clear {keep : LineSet} {key : Leaf} {loose header rest : List Leaf}
    (h : clear keep (key :: (loose ++ header)) = false) (hne : header ≠ [])
    (hordered : ∀ a ∈ header, ∀ x ∈ rest, a.endLine ≤ x.line) : Pinned keep key rest := by
  obtain ⟨last, hlast⟩ := Option.isSome_iff_exists.mp (List.getLast?_isSome.mpr hne)
  obtain ⟨line, hline, hfrom, hto⟩ :=
    (@clear_eq_false_iff keep _ _ last rfl
      (by simp [List.getLast?_cons, List.getLast?_append, hlast])).mp h
  refine ⟨line, hline, hfrom, fun x hx => ?_⟩
  have hx := hordered last (List.mem_of_getLast? hlast) x hx
  exact hto.trans (hx.trans x.line_le_endLine)

theorem not_clear_of_pinned {keep : LineSet} {key : Leaf} {loose header rest : List Leaf}
    (h : Pinned keep key rest) (hne : header ≠ []) (hheader : header ⊆ rest) :
    clear keep (key :: (loose ++ header)) = false := by
  obtain ⟨last, hlast⟩ := Option.isSome_iff_exists.mp (List.getLast?_isSome.mpr hne)
  obtain ⟨line, hline, hfrom, hend⟩ := h
  rw [@clear_eq_false_iff keep _ _ last rfl
    (by simp [List.getLast?_cons, List.getLast?_append, hlast])]
  exact ⟨line, hline, hfrom, hend last (hheader (List.mem_of_getLast? hlast))⟩

/-- What has become of the clauses up to now, `lead` being in front of their node. The tokens of
`settled` stay as they are, and those of `loose` belong to the next header. -/
def Mode.Settles (keep : LineSet) (before lead done pending : List Branch)
    (rest settled loose : List Leaf) : Mode → Prop
  | .free => Unled (before ++ lead) ∧ settled = Branch.tokensOfAll (lead ++ done) ∧
      loose = Branch.tokensOfAll pending
  | .led => (∃ k key, lead = [.leaf k key] ∧ key.kind = .async) ∧ done = [] ∧ settled = [] ∧
      loose = Branch.tokensOfAll (lead ++ pending)
  | .pinned => (∃ k key, lead = [.leaf k key] ∧ key.kind = .async ∧ Pinned keep key rest) ∧
      settled = Branch.tokensOfAll (lead ++ done) ∧ loose = Branch.tokensOfAll pending

structure Stage (keep : LineSet) (before : List Branch) (mode : Mode)
    (lead done pending : List Branch) (rest settled loose : List Leaf) : Prop where
  full : ∀ b ∈ lead ++ done ++ pending, b.shape.Full
  done_last : ∀ b ∈ done.getLast?, b.isSuite = true
  pending_suite : ∀ b ∈ pending, b.isSuite = false
  settles : mode.Settles keep before lead done pending rest settled loose

variable {keep : LineSet} {before lead done pending : List Branch} {mode : Mode}
  {rest settled loose : List Leaf}

theorem Stage.tokens_eq (h : Stage keep before mode lead done pending rest settled loose) :
    Branch.tokensOfAll (lead ++ done ++ pending) = settled ++ loose := by
  cases mode with
  | free =>
    obtain ⟨-, rfl, rfl⟩ := h.settles
    rw [Branch.tokensOfAll_append]
  | led =>
    obtain ⟨-, rfl, rfl, rfl⟩ := h.settles
    simp
  | pinned =>
    obtain ⟨-, rfl, rfl⟩ := h.settles
    rw [Branch.tokensOfAll_append]

theorem Stage.mono (h : Stage keep before mode lead done pending rest settled loose)
    {rest' : List Leaf} (hrest : rest' ⊆ rest) :
    Stage keep before mode lead done pending rest' settled loose := by
  refine ⟨h.full, h.done_last, h.pending_suite, ?_⟩
  have hsettles := h.settles
  cases mode with
  | free => exact hsettles
  | led => exact hsettles
  | pinned =>
    obtain ⟨⟨k, key, hlead, hkind, line, hline, hkey, hend⟩, htokens⟩ := hsettles
    exact ⟨⟨k, key, hlead, hkind, line, hline, hkey, fun x hx => hend x (hrest hx)⟩, htokens⟩

/-- A clause on one line joins what belongs to the next header. -/
theorem Stage.push (h : Stage keep before mode lead done pending rest settled loose)
    {run : List Branch} (hrun : ∀ b ∈ run, b.shape.Full ∧ b.Quiet) :
    Stage keep before mode lead done (pending ++ run) rest settled
      (loose ++ Branch.tokensOfAll run) := by
  refine ⟨?_, h.done_last, ?_, ?_⟩
  · intro b hb
    rw [← List.append_assoc] at hb
    rcases List.mem_append.mp hb with hb | hb
    · exact h.full b hb
    · exact (hrun b hb).1
  · intro b hb
    rcases List.mem_append.mp hb with hb | hb
    · exact h.pending_suite b hb
    · exact (hrun b hb).2.isSuite
  · cases mode with
    | free =>
      obtain ⟨hunled, rfl, rfl⟩ := h.settles
      exact ⟨hunled, rfl, by simp⟩
    | led =>
      obtain ⟨hlead, hdone, rfl, rfl⟩ := h.settles
      exact ⟨hlead, hdone, rfl, by simp⟩
    | pinned =>
      obtain ⟨hlead, rfl, rfl⟩ := h.settles
      exact ⟨hlead, rfl, by simp⟩

theorem Stage.after_suite (hfull : ∀ b ∈ lead ++ done, b.shape.Full) {s : Branch}
    (hs : s.isSuite = true) (hsfull : s.shape.Full)
    (hsettles : mode.Settles keep before lead (done ++ [s]) [] rest settled []) :
    Stage keep before mode lead (done ++ [s]) [] rest settled [] := by
  refine ⟨?_, by simpa using hs, by simp, hsettles⟩
  intro b hb
  rw [List.append_nil, ← List.append_assoc] at hb
  rcases List.mem_append.mp hb with hb | hb
  · exact hfull b hb
  · rwa [List.mem_singleton.mp hb]

section Suites

variable {t : Tree} {f : Frame} {above : Context} {owner suite n : NodeId} {symbol : Symbol}
  {newline : Leaf} {header more post others : List Branch}

theorem Stage.logicalLine
    (hstage : Stage keep f.before mode lead done pending rest settled loose)
    (h : t.Holds (Context.fill (f :: above) (lead ++ [.node owner symbol (done ++ (pending ++ header) ++
      .node suite .suite (.leaf n newline :: more) :: post)]) ++ others))
    (hrooted : Context.Rooted (f :: above)) (hheader : IsHeader (header.map Branch.shape)) :
    logicalLine keep t n = collapseHeader keep t
      (.ok ((leadOf (f.before ++ lead) ++ (pending ++ header)).map Branch.id)) := by
  have hplace : t.Holds (Context.fill (⟨suite, .suite, [], more⟩ ::
      ⟨owner, symbol, done ++ (pending ++ header), post⟩ ::
      ⟨f.id, f.symbol, f.before ++ lead, f.after⟩ :: above) [.leaf n newline] ++ others) := by
    simpa [Context.fill] using h
  refine logicalLine_suite hplace rfl (hrooted.reframe rfl) rfl hstage.done_last ?_
    (by simp [hheader.ne_nil])
  intro b hb
  rcases List.mem_append.mp hb with hb | hb
  · exact hstage.pending_suite b hb
  · exact (hheader.quiet b hb).isSuite

/-- The header of a clause gives way to a verbatim leaf, with the `async` if that comes first, or
stays. -/
theorem Stage.turns_header
    (hstage : Stage keep f.before mode lead done pending (Branch.tokensOfAll header ++ rest) settled
      loose)
    (h : t.Holds (Context.fill (f :: above) (lead ++ [.node owner symbol (done ++ (pending ++ header) ++
      .node suite .suite (.leaf n newline :: more) :: post)]) ++ others))
    (hrooted : Context.Rooted (f :: above)) (hheader : IsHeader (header.map Branch.shape))
    (hordered : ∀ a ∈ Branch.tokensOfAll header, ∀ x ∈ rest, a.endLine ≤ x.line) :
    Turns (Collapse.logicalLine keep) t [n] (f :: above) others fun run => ∃ lead' done',
      run = lead' ++ [.node owner symbol (done' ++
        .node suite .suite (.leaf n newline :: more) :: post)] ∧
      lead'.length = lead.length ∧
      ∀ s : Branch, s.isSuite = true → s.shape.Full →
        Stage keep f.before (mode.next keep (loose ++ Branch.tokensOfAll header)) lead'
          (done' ++ [s]) [] rest
          (settled ++ sealHeader keep mode (loose ++ Branch.tokensOfAll header) ++ s.shape.tokens)
          [] := by
  have hline := hstage.logicalLine h hrooted hheader
  have hfull : ∀ b ∈ pending ++ header, b.shape.Full := by
    intro b hb
    rcases List.mem_append.mp hb with hb | hb
    · exact hstage.full b (by simp [hb])
    · exact hheader.full b hb
  have hne : pending ++ header ≠ [] := by simp [hheader.ne_nil]
  cases mode with
  | free =>
    obtain ⟨hunled, rfl, rfl⟩ := hstage.settles
    rw [leadOf_eq_nil hunled, List.nil_append] at hline
    have hplace : t.Holds (Context.fill (⟨owner, symbol, done,
        .node suite .suite (.leaf n newline :: more) :: post⟩ ::
        ⟨f.id, f.symbol, f.before ++ lead, f.after⟩ :: above) (pending ++ header) ++ others) := by
      simpa [Context.fill] using h
    refine (turns_header hplace hline hne hfull).through ?_
    rintro run ⟨-, hrun, htokens⟩
    refine ⟨_, by simp [Context.fill], lead, done ++ run, rfl, rfl, ?_⟩
    intro s hs hsfull
    refine Stage.after_suite ?_ hs hsfull ⟨hunled, ?_, rfl⟩
    · intro b hb
      simp only [List.mem_append] at hb
      rcases hb with hb | hb | hb
      · exact hstage.full b (by simp [hb])
      · exact hstage.full b (by simp [hb])
      · exact hrun b hb
    · simp [sealHeader, htokens]
  | led =>
    obtain ⟨⟨k, key, rfl, hkind⟩, rfl, rfl, rfl⟩ := hstage.settles
    rw [leadOf_concat hkind] at hline
    refine (turns_keyword h hline hfull).mono fun run hrun => ?_
    have htokens : Branch.tokensOfAll ([.leaf k key] ++ pending) ++ Branch.tokensOfAll header =
        key :: Branch.tokensOfAll (pending ++ header) := by
      simp
    rw [htokens]
    by_cases hclear : clear keep (key :: Branch.tokensOfAll (pending ++ header)) = true
    · rw [if_pos hclear] at hrun
      obtain ⟨m, leaf, rfl, hleaf, hfold⟩ := hrun
      refine ⟨[.leaf m leaf], [], by simp, rfl, fun s hs hsfull => ?_⟩
      rw [Mode.next, if_pos hclear]
      refine Stage.after_suite ?_ hs hsfull ⟨?_, ?_, rfl⟩
      · simpa [Branch.shape] using Shape.Full.leaf leaf
      · simp [Unled, Branch.isAsync, hleaf]
      · rw [sealHeader, if_neg (by simp), sealRun, if_pos hclear, ← hfold]
        simp
    · rw [if_neg hclear] at hrun
      rw [Bool.not_eq_true] at hclear
      refine ⟨[.leaf k key], pending ++ header, by simpa using hrun, rfl, fun s hs hsfull => ?_⟩
      rw [Mode.next, hclear, if_neg (by simp)]
      refine Stage.after_suite ?_ hs hsfull ⟨⟨k, key, rfl, hkind, ?_⟩, ?_, rfl⟩
      · intro b hb
        rcases List.mem_append.mp hb with hb | hb
        · exact hstage.full b (by simp [List.mem_singleton.mp hb])
        · exact hfull b hb
      · rw [Branch.tokensOfAll_append] at hclear
        exact pinned_of_not_clear hclear hheader.tokens_ne_nil hordered
      · rw [sealHeader, if_neg (by simp), sealRun, hclear, if_neg (by simp)]
        simp
  | pinned =>
    obtain ⟨⟨k, key, rfl, hkind, hpinned⟩, rfl, rfl⟩ := hstage.settles
    rw [leadOf_concat hkind] at hline
    refine (turns_keyword h hline hfull).mono fun run hrun => ?_
    have hclear : clear keep (key :: Branch.tokensOfAll (pending ++ header)) = false := by
      rw [Branch.tokensOfAll_append]
      exact not_clear_of_pinned hpinned hheader.tokens_ne_nil (List.subset_append_left _ _)
    rw [hclear, if_neg (by simp)] at hrun
    refine ⟨[.leaf k key], done ++ (pending ++ header), by simpa using hrun, rfl,
      fun s hs hsfull => ?_⟩
    obtain ⟨line, hline, hkey, hend⟩ := hpinned
    refine Stage.after_suite ?_ hs hsfull
      ⟨⟨k, key, rfl, hkind, line, hline, hkey, fun x hx => hend x (List.mem_append_right _ hx)⟩, ?_,
        rfl⟩
    · intro b hb
      rw [← List.append_assoc] at hb
      rcases List.mem_append.mp hb with hb | hb
      · exact hstage.full b (List.mem_append_left _ hb)
      · exact hfull b hb
    · simp [sealHeader]

theorem Stage.turns_suite {indent dedent : Leaf} {i d : NodeId} {body : List Branch}
    {tokens : List Leaf}
    (hstage : Stage keep f.before mode lead done pending (Branch.tokensOfAll header ++ rest) settled
      loose)
    (h : t.Holds (Context.fill (f :: above) (lead ++ [.node owner symbol (done ++ (pending ++ header) ++
      .node suite .suite (.leaf n newline :: (.leaf i indent :: body ++ [.leaf d dedent])) ::
      post)]) ++ others))
    (hrooted : Context.Rooted (f :: above)) (hheader : IsHeader (header.map Branch.shape))
    (hordered : ∀ a ∈ Branch.tokensOfAll header, ∀ x ∈ rest, a.endLine ≤ x.line)
    (hindent : indent.kind = .indent) (hbody : Closed keep (body.map Branch.shape) tokens) :
    Turns (Collapse.logicalLine keep) t (n :: newlineIds (Branch.leavesOfAll body)) (f :: above) others
      fun run => ∃ lead' done', run = lead' ++ [.node owner symbol (done' ++ post)] ∧
        lead'.length = lead.length ∧ (Branch.leavesOfAll done').getLast? = some (d, dedent) ∧
        Stage keep f.before (mode.next keep (loose ++ Branch.tokensOfAll header)) lead' done' [] rest
          (settled ++ sealHeader keep mode (loose ++ Branch.tokensOfAll header) ++
            suiteTokens newline indent tokens dedent) [] := by
  refine (hstage.turns_header h hrooted hheader hordered).andThen ?_
  rintro u run others' hu ⟨lead', done', rfl, hlength, hnext⟩
  have hplace : u.Holds (Context.fill
      (⟨suite, .suite, [.leaf n newline, .leaf i indent], [.leaf d dedent]⟩ ::
      ⟨owner, symbol, done', post⟩ :: ⟨f.id, f.symbol, f.before ++ lead', f.after⟩ :: above) body ++
      others') := by
    simpa [Context.fill] using hu
  have hframe : Context.Rooted (⟨f.id, f.symbol, f.before ++ lead', f.after⟩ :: above) :=
    hrooted.reframe rfl
  have hturns := hbody u _ _ body others' hplace ((hframe.cons _).cons _)
    (by simp [Unled, Branch.isAsync, hindent]) (by simp) rfl
  refine hturns.through ?_
  rintro xs ⟨hxs, rfl⟩
  set s := Branch.node suite .suite (.leaf n newline :: .leaf i indent :: xs ++ [.leaf d dedent])
    with hsdef
  have hsfull : s.shape.Full := by
    refine Branch.full_node (by simp) fun b hb => ?_
    simp only [List.mem_append, List.mem_cons, List.not_mem_nil, or_false] at hb
    rcases hb with (rfl | rfl | hb) | rfl
    · exact .leaf _
    · exact .leaf _
    · exact (hxs b hb).1
    · exact .leaf _
  have htokens : s.shape.tokens = suiteTokens newline indent (Branch.tokensOfAll xs) dedent := by
    rw [Branch.tokens_shape]
    simp [s, Branch.leaves, Branch.leavesOfAll, suiteTokens, Branch.tokensOfAll]
  refine ⟨lead' ++ [.node owner symbol (done' ++ [s] ++ post)], by simp [Context.fill, hsdef], lead',
    done' ++ [s], rfl, hlength, ?_, ?_⟩
  · simp [hsdef, Branch.leavesOfAll, Branch.leaves, List.getLast?_cons]
  · rw [← htokens]
    exact hnext s rfl hsfull

end Suites

/-- Wherever a block with the given clauses stands, the line pass leaves of them what `clauseTokens`
says before it comes to the last leaf. -/
def TrimmedClauses (keep : LineSet) (clauses : Clauses) : Prop :=
  ∀ (mode : Mode) (t : Tree) (f : Frame) (above : Context) (owner : NodeId) (symbol : Symbol)
    (lead done pending bs others : List Branch) (settled loose : List Leaf),
    Stage keep f.before mode lead done pending clauses.tokens settled loose →
    t.Holds (Context.fill (f :: above) (lead ++ [.node owner symbol (done ++ pending ++ bs)]) ++
      others) →
    Context.Rooted (f :: above) → bs.map Branch.shape = clauses.shapes →
    Turns (logicalLine keep) t (newlineIds (Branch.leavesOfAll bs).dropLast) (f :: above) others fun run =>
      ∃ lead' parts, run = lead' ++ [.node owner symbol parts] ∧ lead'.length = lead.length ∧
        (∀ b ∈ lead', b.shape.Full) ∧ TrimsAll bs parts ∧
        Branch.tokensOfAll (lead' ++ parts) = settled ++ clauseTokens keep mode loose clauses

theorem tokens_eq_of_map {bs : List Branch} {clauses : Clauses}
    (h : bs.map Branch.shape = clauses.shapes) : clauses.tokens = Branch.tokensOfAll bs := by
  rw [Clauses.tokens, ← h, Branch.tokensOfAll_shapes]

theorem trimmedClauses_inline {header : List Shape} {body : List Line} (hheader : IsHeader header)
    (hne : body ≠ []) (hbody : ∀ line ∈ body, line.Wf) :
    TrimmedClauses keep (.inline header body) := by
  intro mode t f above owner symbol lead done pending bs others settled loose hstage h hrooted hshape
  obtain ⟨hs, ls, rfl, rfl, hls⟩ := List.map_eq_append_iff.mp hshape
  have hplace : t.Holds (Context.fill (⟨owner, symbol, done ++ pending ++ hs, []⟩ ::
      ⟨f.id, f.symbol, f.before ++ lead, f.after⟩ :: above) ls ++ others) := by
    simpa [Context.fill] using h
  have hframe : Context.Rooted (⟨f.id, f.symbol, f.before ++ lead, f.after⟩ :: above) :=
    hrooted.reframe rfl
  have hturns := @trimmedAll_lines keep body hne hbody t _ _ ls others hplace (hframe.cons _)
    (unled_of_ne_nil hheader.ne_nil fun b hb => (hheader.quiet b hb).isAsync) hls
  have hleaves : Branch.leavesOfAll ls ≠ [] := by
    refine leavesOfAll_ne_nil ?_ fun b hb => ?_
    · rintro rfl
      rw [List.map_nil, eq_comm, List.map_eq_nil_iff] at hls
      exact hne hls
    · have hmem : b.shape ∈ body.map Line.shape := hls ▸ List.mem_map_of_mem hb
      obtain ⟨line, hline, heq⟩ := List.mem_map.mp hmem
      exact heq ▸ full_line (hbody line hline)
  rw [Branch.leavesOfAll_append, List.dropLast_append_of_ne_nil hleaves, newlineIds_append,
    hheader.newlineIds, List.nil_append]
  refine hturns.through ?_
  rintro run ⟨hrun, htokens⟩
  refine ⟨lead ++ [.node owner symbol (done ++ pending ++ hs ++ run)], by simp [Context.fill], lead,
    _, rfl, rfl, fun b hb => hstage.full b (by simp [hb]), hrun.append ?_, ?_⟩
  · intro b hb
    rcases List.mem_append.mp hb with hb | hb
    · exact hstage.full b (by simpa using Or.inr (List.mem_append.mp hb))
    · exact hheader.full b hb
  · rw [← List.append_assoc, ← List.append_assoc, ← List.append_assoc, Branch.tokensOfAll_append,
      Branch.tokensOfAll_append, hstage.tokens_eq, htokens, clauseTokens]
    simp

theorem leavesOfAll_clauses_ne_nil {bs : List Branch} {clauses : Clauses}
    (h : bs.map Branch.shape = clauses.shapes) (hwf : clauses.Wf) : Branch.leavesOfAll bs ≠ [] := by
  have hheader : ∃ header others, IsHeader header ∧ clauses.shapes = header ++ others := by
    cases clauses with
    | inline header body => exact ⟨header, _, hwf.1, rfl⟩
    | suite header newline indent body dedent => exact ⟨header, _, hwf.1, rfl⟩
    | inlineThen header body rest =>
      exact ⟨header, body.map Line.shape ++ rest.shapes, hwf.1.1, by simp [Clauses.shapes]⟩
    | suiteThen header newline indent body dedent rest => exact ⟨header, _, hwf.1.1, rfl⟩
  obtain ⟨header, others, hheader, heq⟩ := hheader
  rw [heq] at h
  obtain ⟨hs, more, rfl, rfl, -⟩ := List.map_eq_append_iff.mp h
  rw [Branch.leavesOfAll_append]
  exact List.append_ne_nil_of_left_ne_nil (leavesOfAll_ne_nil hheader.ne_nil hheader.full) _

theorem trimmedClauses_inlineThen {header : List Shape} {body : List Line} {rest : Clauses}
    (hheader : IsHeader header) (hbody : ∀ line ∈ body, line.Wf) (hwf : rest.Wf)
    (hrest : TrimmedClauses keep rest) : TrimmedClauses keep (.inlineThen header body rest) := by
  intro mode t f above owner symbol lead done pending bs others settled loose hstage h hrooted hshape
  obtain ⟨start, cs, rfl, hstart, hcs⟩ := List.map_eq_append_iff.mp hshape
  obtain ⟨hs, ls, rfl, rfl, hls⟩ := List.map_eq_append_iff.mp hstart
  have hleaves := leavesOfAll_clauses_ne_nil hcs hwf
  have hne : cs ≠ [] := by
    rintro rfl
    exact hleaves rfl
  have hplace : t.Holds (Context.fill (⟨owner, symbol, done ++ pending ++ hs, cs⟩ ::
      ⟨f.id, f.symbol, f.before ++ lead, f.after⟩ :: above) ls ++ others) := by
    simpa [Context.fill] using h
  have hframe : Context.Rooted (⟨f.id, f.symbol, f.before ++ lead, f.after⟩ :: above) :=
    hrooted.reframe rfl
  have hturns := @closed_lines keep body hbody t _ _ ls others hplace (hframe.cons _)
    (unled_of_ne_nil hheader.ne_nil fun b hb => (hheader.quiet b hb).isAsync) hne hls
  rw [Branch.leavesOfAll_append, List.dropLast_append_of_ne_nil hleaves, newlineIds_append,
    Branch.leavesOfAll_append, newlineIds_append, hheader.newlineIds, List.nil_append]
  refine hturns.andThen ?_
  rintro u xs others' hu ⟨hxs, htokens⟩
  have hnext : u.Holds (Context.fill (f :: above) (lead ++
      [.node owner symbol (done ++ (pending ++ hs ++ xs) ++ cs)]) ++ others') := by
    simpa [Context.fill] using hu
  have hpushed := (hstage.push fun b hb => ⟨hheader.full b hb, hheader.quiet b hb⟩).push hxs
  have hsub : rest.tokens ⊆ (Clauses.inlineThen (hs.map Branch.shape) body rest).tokens := by
    simp [Clauses.tokens, Clauses.shapes]
  have hmore := hrest mode u f above owner symbol lead done _ cs others' settled _
    (hpushed.mono hsub) hnext hrooted hcs
  refine hmore.mono ?_
  rintro run ⟨lead', parts, rfl, hlength, hlead, hparts, heq⟩
  refine ⟨lead', parts, rfl, hlength, hlead, ?_, ?_⟩
  · exact @TrimsAll.append (hs ++ ls) [] cs parts hparts (by simp)
  · rw [heq, clauseTokens, htokens, Branch.tokensOfAll_shapes]

theorem exists_suite {b : Branch} {newline indent dedent : Leaf} {body : List Shape}
    (h : b.shape = suiteShape newline indent body dedent) :
    ∃ id n i d bs, b = .node id .suite (.leaf n newline :: (.leaf i indent :: bs ++
      [.leaf d dedent])) ∧ bs.map Branch.shape = body := by
  obtain ⟨id, parts, rfl, hparts⟩ := Branch.exists_node h
  obtain ⟨start, last, rfl, hstart, hlast⟩ := List.map_eq_append_iff.mp hparts
  obtain ⟨x, rfl, hx⟩ := List.map_eq_singleton_iff.mp hlast
  obtain ⟨d, rfl⟩ := Branch.exists_leaf hx
  obtain ⟨x, rest, rfl, hx, hrest⟩ := List.map_eq_cons_iff.mp hstart
  obtain ⟨n, rfl⟩ := Branch.exists_leaf hx
  obtain ⟨x, bs, rfl, hx, hbs⟩ := List.map_eq_cons_iff.mp hrest
  obtain ⟨i, rfl⟩ := Branch.exists_leaf hx
  exact ⟨id, n, i, d, bs, rfl, hbs⟩

theorem newlineIds_suite {id n i d : NodeId} {newline indent dedent : Leaf} {bs : List Branch}
    (hnewline : newline.kind = .newline) (hindent : indent.kind = .indent)
    (hdedent : dedent.kind = .dedent) :
    newlineIds (Branch.node id .suite (.leaf n newline :: (.leaf i indent :: bs ++
      [.leaf d dedent]))).leaves = n :: newlineIds (Branch.leavesOfAll bs) := by
  simp [newlineIds, Branch.leaves, Branch.leavesOfAll, hnewline, hindent, hdedent]

theorem trimmedClauses_suite {header : List Shape} {newline indent dedent : Leaf} {body : Block}
    (hheader : IsHeader header) (hnewline : newline.kind = .newline)
    (hindent : indent.kind = .indent) (hdedent : dedent.kind = .dedent)
    (hbody : Closed keep body.shapes (blockTokens keep body)) :
    TrimmedClauses keep (.suite header newline indent body dedent) := by
  intro mode t f above owner symbol lead done pending bs others settled loose hstage h hrooted hshape
  obtain ⟨hs, last, rfl, rfl, hlast⟩ := List.map_eq_append_iff.mp hshape
  obtain ⟨x, rfl, hx⟩ := List.map_eq_singleton_iff.mp hlast
  obtain ⟨id, n, i, d, bs, rfl, hbs⟩ := exists_suite hx
  have hplace : t.Holds (Context.fill (f :: above) (lead ++ [.node owner symbol (done ++
      (pending ++ hs) ++ .node id .suite (.leaf n newline :: (.leaf i indent :: bs ++
      [.leaf d dedent])) :: [])]) ++ others) := by
    simpa [Context.fill] using h
  have hstage' : Stage keep f.before mode lead done pending (Branch.tokensOfAll hs ++ []) settled
      loose := by
    refine hstage.mono ?_
    simp [Clauses.tokens, Clauses.shapes]
  have hend : (Branch.leavesOfAll (hs ++ [.node id .suite (.leaf n newline :: (.leaf i indent :: bs ++
      [.leaf d dedent]))])).getLast? = some (d, dedent) := by
    simp [Branch.leavesOfAll, Branch.leaves, List.getLast?_append, List.getLast?_cons]
  have hturns := hstage'.turns_suite hplace hrooted hheader (by simp) hindent (hbs ▸ hbody)
  rw [newlineIds_dropLast (by rw [hend]; simp [hdedent]), Branch.leavesOfAll_append, newlineIds_append,
    hheader.newlineIds, List.nil_append, Branch.leavesOfAll, Branch.leavesOfAll, List.append_nil,
    newlineIds_suite hnewline hindent hdedent]
  refine hturns.mono ?_
  rintro run ⟨lead', done', rfl, hlength, hdone, hnext⟩
  refine ⟨lead', done', by simp, hlength, fun b hb => hnext.full b (by simp [hb]), ⟨?_, ?_, ?_, ?_⟩, ?_⟩
  · rintro rfl
    simp [Branch.leavesOfAll] at hdone
  · exact fun b hb => hnext.full b (by simp [hb])
  · rw [hdone, hend]
  · intro m nl hm hkind
    rw [hend, Option.some.injEq, Prod.mk.injEq] at hm
    rw [← hm.2, hdedent] at hkind
    exact TokenKind.noConfusion hkind
  · have htokens := hnext.tokens_eq
    rw [List.append_nil, List.append_nil] at htokens
    rw [htokens, clauseTokens, Branch.tokensOfAll_shapes, List.append_assoc]

theorem trimmedClauses_suiteThen {header : List Shape} {newline indent dedent : Leaf} {body : Block}
    {rest : Clauses} (hheader : IsHeader header) (hnewline : newline.kind = .newline)
    (hindent : indent.kind = .indent) (hdedent : dedent.kind = .dedent)
    (hbody : Closed keep body.shapes (blockTokens keep body)) (hwf : rest.Wf)
    (hordered : Leaf.Ordered (Clauses.suiteThen header newline indent body dedent rest).tokens)
    (hrest : TrimmedClauses keep rest) :
    TrimmedClauses keep (.suiteThen header newline indent body dedent rest) := by
  intro mode t f above owner symbol lead done pending bs others settled loose hstage h hrooted hshape
  obtain ⟨hs, last, rfl, rfl, hlast⟩ := List.map_eq_append_iff.mp hshape
  obtain ⟨x, cs, rfl, hx, hcs⟩ := List.map_eq_cons_iff.mp hlast
  obtain ⟨id, n, i, d, bs, rfl, hbs⟩ := exists_suite hx
  have hleaves := leavesOfAll_clauses_ne_nil hcs hwf
  have hplace : t.Holds (Context.fill (f :: above) (lead ++ [.node owner symbol (done ++
      (pending ++ hs) ++ .node id .suite (.leaf n newline :: (.leaf i indent :: bs ++
      [.leaf d dedent])) :: cs)]) ++ others) := by
    simpa [Context.fill] using h
  have htokens : (Clauses.suiteThen (hs.map Branch.shape) newline indent body dedent rest).tokens =
      Branch.tokensOfAll hs ++ (suiteTokens newline indent body.tokens dedent ++ rest.tokens) := by
    rw [tokens_suiteThen, Branch.tokensOfAll_shapes]
  have hstage' : Stage keep f.before mode lead done pending
      (Branch.tokensOfAll hs ++ rest.tokens) settled loose := by
    refine hstage.mono ?_
    rw [htokens]
    exact List.append_subset.mpr ⟨List.subset_append_left _ _, fun x hx => by simp [hx]⟩
  have hafter : ∀ a ∈ Branch.tokensOfAll hs, ∀ x ∈ rest.tokens, a.endLine ≤ x.line := by
    intro a ha x hx
    rw [Leaf.Ordered, htokens, List.pairwise_append] at hordered
    refine hordered.2.2 a ha x (by simp [hx]) ?_
    have hordinary := hheader.isOrdinary a (by rwa [Branch.tokensOfAll_shapes])
    intro hkind
    rw [hkind] at hordinary
    exact Bool.noConfusion hordinary
  have hturns := hstage'.turns_suite hplace hrooted hheader hafter hindent (hbs ▸ hbody)
  rw [Branch.leavesOfAll_append, Branch.leavesOfAll, ← List.append_assoc,
    List.dropLast_append_of_ne_nil hleaves, newlineIds_append, newlineIds_append, hheader.newlineIds,
    List.nil_append, newlineIds_suite hnewline hindent hdedent]
  refine hturns.andThen ?_
  rintro u run others' hu ⟨lead', done', rfl, hlength, -, hnext⟩
  have hmore := hrest _ u f above owner symbol lead' done' [] cs others' _ _ hnext
    (by simpa using hu) hrooted hcs
  refine hmore.mono ?_
  rintro run ⟨lead'', parts, rfl, hlength', hlead, hparts, heq⟩
  refine ⟨lead'', parts, rfl, hlength'.trans hlength, hlead, ?_, ?_⟩
  · rw [List.append_cons]
    exact @TrimsAll.append _ [] cs parts hparts (by simp)
  · rw [heq, clauseTokens, Branch.tokensOfAll_shapes]
    simp

end Clauses

end Collapse

end LineScope
