import LineScope.Proofs.Collapse.Clauses
import LineScope.Proofs.Collapse.Statement

/-!
# Blocks under the statement pass

A block goes at its first suite or at none. If at none, only simple statements in it change. If at
the first, its later clauses are visited in the loose tree that the block has become, and nothing
more changes in the file.
-/
namespace LineScope

namespace Collapse

open LineScope.Tree Grammar

variable {keep : LineSet}

theorem clear_middle {front middle middle' back : List Leaf} (hfront : front ≠ []) (hback : back ≠ []) :
    clear keep (front ++ middle ++ back) = clear keep (front ++ middle' ++ back) := by
  obtain ⟨a, front, rfl⟩ := List.exists_cons_of_ne_nil hfront
  obtain ⟨b, hb⟩ := Option.isSome_iff_exists.mp (List.getLast?_isSome.mpr hback)
  simp [clear, Leaf.span?, List.getLast?_append, List.getLast?_cons, hb]

theorem sealLine_wf {line : Line} (h : line.Wf) : (sealLine keep line).Wf := by
  cases line with
  | verbatim leaf => exact h
  | simple parts newline =>
    rw [sealLine]
    split
    · next leaf hleaf =>
      unfold sealed? at hleaf
      split at hleaf
      · cases hleaf
      · split at hleaf
        · rw [← Option.some.inj hleaf]
          rfl
        · cases hleaf
    · exact h

theorem full_of_lines {lines : List Line} (h : ∀ line ∈ lines, line.Wf) {bs : List Branch}
    (hshape : bs.map Branch.shape = lines.map Line.shape) : ∀ b ∈ bs, b.shape.Full := by
  intro b hb
  have hmem : b.shape ∈ lines.map Line.shape := hshape ▸ List.mem_map_of_mem hb
  obtain ⟨line, hline, heq⟩ := List.mem_map.mp hmem
  exact heq ▸ full_line (h line hline)

section Clauses

variable {t : Tree} {c : Context} {q : Option Leader} {owner : NodeId} {symbol : Symbol}
  {before bs others : List Branch}

/-- The block cannot go at a suite: it is loose, or some kept line is between its ends. -/
def Stays (keep : LineSet) (c : Context) (q : Option Leader) (parts : List Branch) : Prop :=
  c = [] ∨ ((∀ b ∈ parts, b.shape.Full) ∧
    clear keep (leaderTokens q ++ Branch.tokensOfAll parts) = false)

theorem full_ledBlock (hne : bs ≠ []) (hfull : ∀ b ∈ bs, b.shape.Full) :
    (ledBlock q (.node owner symbol bs)).shape.Full := by
  cases q with
  | none => exact Branch.full_node hne hfull
  | some l =>
    refine Branch.full_node (by simp) fun b hb => ?_
    simp only [List.mem_cons, List.not_mem_nil, or_false] at hb
    rcases hb with rfl | rfl
    · exact .leaf _
    · exact Branch.full_node hne hfull

theorem tokens_node (id : NodeId) (symbol : Symbol) (bs : List Branch) :
    (Branch.node id symbol bs).shape.tokens = Branch.tokensOfAll bs := by
  rw [Branch.tokens_shape]
  rfl

theorem Stays.statement_suite {s : Branch} {after : List Branch}
    (hstay : Stays keep c q (before ++ s :: after))
    (h : t.Holds (c.fill [ledBlock q (.node owner symbol (before ++ s :: after))] ++ others))
    (hq : ∀ l ∈ q, l.key.kind = .async) (hunled : q = none → ∀ f ∈ c.head?, Unled f.before)
    (hs : s.isSuite = true) (hfresh : ∀ x ∈ s.shape.tokens, x.kind ≠ .verbatim) :
    statement keep t s.id = ⟨t, .ok false⟩ := by
  rw [Collapse.statement_suite h hq hunled hs hfresh]
  rcases hstay with rfl | ⟨hfull, hclear⟩
  · rw [collapseNode_top h]
    split <;> rfl
  · rw [misses_node keep h (full_ledBlock (by simp) hfull), ← Branch.tokens_shape, tokens_ledBlock,
      tokens_node, hclear, if_neg (by simp)]

/-- Without the simple statement at the very end, if there is one. -/
def openParts (clauses : Clauses) (bs : List Branch) : List Branch :=
  if clauses.endsInline then bs.dropLast else bs

theorem openParts_append {clauses rest : Clauses} (pre : List Branch) {cs : List Branch}
    (hends : clauses.endsInline = rest.endsInline) (hne : cs ≠ []) :
    openParts clauses (pre ++ cs) = pre ++ openParts rest cs := by
  unfold openParts
  rw [hends]
  split
  · exact List.dropLast_append_of_ne_nil hne
  · rfl

theorem statementIds_suite {s : Branch} (hs : s.isSuite = true) : s.statementIds = [s.id] := by
  cases s with
  | leaf id token => simp [Branch.isSuite] at hs
  | node id sym parts =>
    have hsym : sym = .suite := by simpa [Branch.isSuite] using hs
    rw [Branch.statementIds, if_pos (.inr hsym)]
    rfl

theorem clauses_ne_nil {clauses : Clauses} (hwf : clauses.Wf)
    (hshape : bs.map Branch.shape = clauses.shapes) : bs ≠ [] := by
  rintro rfl
  exact leavesOfAll_clauses_ne_nil hshape hwf rfl

/-- In blocks with these clauses that cannot go at a suite only simple statements change, all but the
one at the very end. -/
def SealsLines (keep : LineSet) (clauses : Clauses) : Prop :=
  ∀ (t : Tree) (c : Context) (q : Option Leader) (owner : NodeId) (symbol : Symbol)
    (before bs others : List Branch),
    t.Holds (Context.fill (⟨owner, symbol, before, []⟩ :: (leaderFrames q ++ c)) bs ++ others) →
    bs.map Branch.shape = clauses.shapes →
    (∀ x ∈ Branch.tokensOfAll bs, x.kind ≠ .verbatim) →
    (∀ l ∈ q, l.key.kind = .async) → (q = none → ∀ f ∈ c.head?, Unled f.before) →
    (clauses.hasSuite = true → Stays keep c q (before ++ bs)) →
    Turns (statement keep) t (Branch.statementIdsOfAll (openParts clauses bs))
      (⟨owner, symbol, before, []⟩ :: (leaderFrames q ++ c)) others fun run =>
        run.map Branch.shape = (sealClauses keep clauses).shapes ∧
        (clauses.endsInline = true → run.getLast? = bs.getLast?)

theorem sealsLines_inline {header : List Shape} {body : List Line} (hheader : IsHeader header)
    (hne : body ≠ []) (hbody : ∀ line ∈ body, line.Wf) : SealsLines keep (.inline header body) := by
  intro t c q owner symbol before bs others h hshape hfresh hq hunled hstay
  obtain ⟨hs, ls, rfl, rfl, hls⟩ := List.map_eq_append_iff.mp hshape
  have hlne : ls ≠ [] := by
    rintro rfl
    rw [List.map_nil, eq_comm, List.map_eq_nil_iff] at hls
    exact hne hls
  have hplace : t.Holds (Context.fill (⟨owner, symbol, before ++ hs, []⟩ ::
      (leaderFrames q ++ c)) ls ++ others) := by
    simpa [Context.fill] using h
  have hturns := @turns_initLines keep t _ _ _ _ _ hplace hls hbody
    (fun x hx => hfresh x (by simp [hx]))
  rw [openParts, if_pos (by rfl), List.dropLast_append_of_ne_nil hlne,
    Branch.statementIdsOfAll_append, IsHeader.statementIds hheader, List.nil_append]
  refine hturns.through ?_
  rintro run ⟨hrun, hlast⟩
  refine ⟨hs ++ run, by simp [Context.fill], by simp [sealClauses, Clauses.shapes, hrun], fun _ => ?_⟩
  have hrne : run ≠ [] := by
    rintro rfl
    rw [List.getLast?_nil, eq_comm, List.getLast?_eq_none_iff] at hlast
    exact hlne hlast
  rw [List.getLast?_append_of_ne_nil hs hrne, List.getLast?_append_of_ne_nil hs hlne, hlast]

theorem isSuite_of_shape {s : Branch} {newline indent dedent : Leaf} {body : List Shape}
    (h : s.shape = suiteShape newline indent body dedent) : s.isSuite = true := by
  obtain ⟨id, parts, rfl, -⟩ := Branch.exists_node h
  rfl

theorem sealsLines_suite {header : List Shape} {newline indent dedent : Leaf} {body : Block}
    (hheader : IsHeader header) : SealsLines keep (.suite header newline indent body dedent) := by
  intro t c q owner symbol before bs others h hshape hfresh hq hunled hstay
  obtain ⟨hs, last, rfl, rfl, hlast⟩ := List.map_eq_append_iff.mp hshape
  obtain ⟨s, rfl, hx⟩ := List.map_eq_singleton_iff.mp hlast
  have hsuite := isSuite_of_shape hx
  have hplace : t.Holds (c.fill [ledBlock q (.node owner symbol (before ++ hs ++ s :: []))] ++
      others) := by
    rw [← fill_ledBlock]
    simpa [Context.fill] using h
  have hstep := Stays.statement_suite (by simpa using hstay rfl) hplace hq hunled hsuite
    (fun x hx => hfresh x (by simp [hx]))
  rw [openParts, if_neg (by simp [Clauses.endsInline]), Branch.statementIdsOfAll_append,
    IsHeader.statementIds hheader, List.nil_append, Branch.statementIdsOfAll,
    Branch.statementIdsOfAll, statementIds_suite hsuite, List.append_nil]
  exact (Turns.stay h ⟨hshape, by simp [Clauses.endsInline]⟩).skip hstep

theorem sealsLines_suiteThen {header : List Shape} {newline indent dedent : Leaf} {body : Block}
    {rest : Clauses} (hheader : IsHeader header) (hwf : rest.Wf) (hrest : SealsLines keep rest) :
    SealsLines keep (.suiteThen header newline indent body dedent rest) := by
  intro t c q owner symbol before bs others h hshape hfresh hq hunled hstay
  obtain ⟨hs, last, rfl, rfl, hlast⟩ := List.map_eq_append_iff.mp hshape
  obtain ⟨s, cs, rfl, hx, hcs⟩ := List.map_eq_cons_iff.mp hlast
  have hsuite := isSuite_of_shape hx
  have hne := clauses_ne_nil hwf hcs
  have hplace : t.Holds (c.fill [ledBlock q (.node owner symbol (before ++ hs ++ s :: cs))] ++
      others) := by
    rw [← fill_ledBlock]
    simpa [Context.fill] using h
  have hstep := Stays.statement_suite (by simpa using hstay rfl) hplace hq hunled hsuite
    (fun x hx => hfresh x (by simp [hx]))
  have hnext : t.Holds (Context.fill (⟨owner, symbol, before ++ hs ++ [s], []⟩ ::
      (leaderFrames q ++ c)) cs ++ others) := by
    simpa [Context.fill] using h
  have hturns := hrest t c q owner symbol _ cs others hnext hcs (fun x hx => hfresh x (by simp [hx]))
    hq hunled (fun _ => by simpa using hstay rfl)
  have hparts : openParts (.suiteThen (hs.map Branch.shape) newline indent body dedent rest)
      (hs ++ s :: cs) = hs ++ [s] ++ openParts rest cs := by
    rw [List.append_cons]
    exact openParts_append _ rfl hne
  rw [hparts, Branch.statementIdsOfAll_append, Branch.statementIdsOfAll_append,
    IsHeader.statementIds hheader, List.nil_append, Branch.statementIdsOfAll,
    Branch.statementIdsOfAll, statementIds_suite hsuite, List.append_nil]
  refine (hturns.through ?_).skip hstep
  rintro run ⟨hrun, hrunLast⟩
  refine ⟨hs ++ s :: run, by simp [Context.fill], ?_, fun hends => ?_⟩
  · simp [sealClauses, Clauses.shapes, hrun, hx]
  · have heq := hrunLast hends
    have hrne : run ≠ [] := by
      rintro rfl
      rw [List.getLast?_nil, eq_comm, List.getLast?_eq_none_iff] at heq
      exact hne heq
    rw [List.append_cons, List.getLast?_append_of_ne_nil _ hrne, List.append_cons,
      List.getLast?_append_of_ne_nil _ hne, heq]

theorem sealsLines_inlineThen {header : List Shape} {body : List Line} {rest : Clauses}
    (hheader : IsHeader header) (hbody : ∀ line ∈ body, line.Wf) (hwf : rest.Wf)
    (hrest : SealsLines keep rest) : SealsLines keep (.inlineThen header body rest) := by
  intro t c q owner symbol before bs others h hshape hfresh hq hunled hstay
  obtain ⟨start, cs, rfl, hstart, hcs⟩ := List.map_eq_append_iff.mp hshape
  obtain ⟨hs, ls, rfl, rfl, hls⟩ := List.map_eq_append_iff.mp hstart
  have hne := clauses_ne_nil hwf hcs
  have hplace : t.Holds (Context.fill (⟨owner, symbol, before ++ hs, cs⟩ ::
      (leaderFrames q ++ c)) ls ++ others) := by
    simpa [Context.fill] using h
  have hturns := @turns_lines keep t _ _ _ _ _ hplace (by simpa using hne) hls hbody
    (fun x hx => hfresh x (by simp [hx]))
  rw [openParts_append _ rfl hne, Branch.statementIdsOfAll_append, Branch.statementIdsOfAll_append,
    IsHeader.statementIds hheader, List.nil_append]
  refine hturns.andThen ?_
  intro u xs others' hu hxs
  have hnext : u.Holds (Context.fill (⟨owner, symbol, before ++ hs ++ xs, []⟩ ::
      (leaderFrames q ++ c)) cs ++ others') := by
    simpa [Context.fill] using hu
  have hmore := hrest u c q owner symbol _ cs others' hnext hcs
    (fun x hx => hfresh x (by simp [hx])) hq hunled (fun hsuite => ?_)
  · refine hmore.through ?_
    rintro run ⟨hrun, hrunLast⟩
    refine ⟨hs ++ xs ++ run, by simp [Context.fill], ?_, fun hends => ?_⟩
    · simp [sealClauses, Clauses.shapes, hrun, hxs]
    · have heq := hrunLast hends
      have hrne : run ≠ [] := by
        rintro rfl
        rw [List.getLast?_nil, eq_comm, List.getLast?_eq_none_iff] at heq
        exact hne heq
      rw [List.getLast?_append_of_ne_nil _ hrne, List.getLast?_append_of_ne_nil _ hne, heq]
  · -- The simple statements that changed are between the ends of the block.
    rcases hstay hsuite with rfl | ⟨hfull, hclear⟩
    · exact .inl rfl
    · refine .inr ⟨?_, ?_⟩
      · have hxsfull := full_of_lines (fun line hline => by
          obtain ⟨l, hl, rfl⟩ := List.mem_map.mp hline
          exact sealLine_wf (hbody l hl)) hxs
        intro b hb
        simp only [List.mem_append] at hb
        rcases hb with ((hb | hb) | hb) | hb
        · exact hfull b (by simp [hb])
        · exact hfull b (by simp [hb])
        · exact hxsfull b hb
        · exact hfull b (by simp [hb])
      · have hback : Branch.tokensOfAll cs ≠ [] := by
          have hleaves := leavesOfAll_clauses_ne_nil hcs hwf
          simpa [Branch.tokensOfAll] using hleaves
        have hfront : leaderTokens q ++ Branch.tokensOfAll before ++ Branch.tokensOfAll hs ≠ [] := by
          simp [hheader.tokens_ne_nil]
        have hmiddle := @clear_middle keep _ (Branch.tokensOfAll xs) (Branch.tokensOfAll ls) _ hfront
          hback
        simp only [Branch.tokensOfAll_append, List.append_assoc] at hclear hmiddle ⊢
        rw [hmiddle, hclear]

theorem sealsLines (clauses : Clauses) (hwf : clauses.Wf) : SealsLines keep clauses := by
  cases clauses with
  | inline header body => exact sealsLines_inline hwf.1 hwf.2.1 hwf.2.2
  | suite header newline indent body dedent => exact sealsLines_suite hwf.1
  | inlineThen header body rest =>
    exact sealsLines_inlineThen hwf.1.1 hwf.1.2.2 hwf.2 (sealsLines rest hwf.2)
  | suiteThen header newline indent body dedent rest =>
    exact sealsLines_suiteThen hwf.1.1 hwf.2 (sealsLines rest hwf.2)

theorem exists_last_line (clauses : Clauses) {bs : List Branch} (hwf : clauses.Wf)
    (hends : clauses.endsInline = true) (hshape : bs.map Branch.shape = clauses.shapes)
    (hfresh : ∀ x ∈ Branch.tokensOfAll bs, x.kind ≠ .verbatim) :
    ∃ init l parts newline, bs = init ++ [l] ∧ l.shape = (Line.simple parts newline).shape ∧
      (Line.simple parts newline).Wf := by
  cases clauses with
  | inline header body =>
    obtain ⟨-, hne, hbody⟩ := hwf
    obtain ⟨lines, line, rfl⟩ := (List.eq_nil_or_concat body).resolve_left hne
    rw [Clauses.shapes, List.concat_eq_append, List.map_append, ← List.append_assoc] at hshape
    obtain ⟨init, last, rfl, -, hlast⟩ := List.map_eq_append_iff.mp hshape
    obtain ⟨l, rfl, hl⟩ := List.map_eq_singleton_iff.mp hlast
    have hline := hbody line (by simp)
    cases line with
    | simple parts newline => exact ⟨init, l, parts, newline, rfl, hl, hline⟩
    | verbatim leaf =>
      refine absurd hline (hfresh leaf ?_)
      simp [hl, Line.shape, Shape.tokens]
  | suite header newline indent body dedent => simp [Clauses.endsInline] at hends
  | inlineThen header body rest =>
    obtain ⟨start, cs, rfl, -, hcs⟩ := List.map_eq_append_iff.mp hshape
    obtain ⟨init, l, parts, newline, rfl, hl, hline⟩ := exists_last_line rest hwf.2 hends hcs
      (fun x hx => hfresh x (by simp [hx]))
    exact ⟨start ++ init, l, parts, newline, by simp, hl, hline⟩
  | suiteThen header newline indent body dedent rest =>
    rw [Clauses.shapes, List.append_cons] at hshape
    obtain ⟨start, cs, rfl, -, hcs⟩ := List.map_eq_append_iff.mp hshape
    obtain ⟨init, l, parts, newline, rfl, hl, hline⟩ := exists_last_line rest hwf.2 hends hcs
      (fun x hx => hfresh x (by simp [hx]))
    exact ⟨start ++ init, l, parts, newline, by simp, hl, hline⟩

theorem statementIds_line {l : Branch} {parts : List Shape} {newline : Leaf}
    (h : l.shape = (Line.simple parts newline).shape) : l.statementIds = [l.id] := by
  obtain ⟨id, n, hs, rfl, -⟩ := exists_simple h
  rw [Branch.statementIds, if_pos (.inl rfl)]
  rfl

/-- In a loose tree nothing goes but simple statements. -/
theorem turns_loose {clauses : Clauses} (hwf : clauses.Wf)
    (h : t.Holds (Context.fill (⟨owner, symbol, before, []⟩ :: (leaderFrames q ++ [])) bs ++ others))
    (hshape : bs.map Branch.shape = clauses.shapes)
    (hfresh : ∀ x ∈ Branch.tokensOfAll bs, x.kind ≠ .verbatim)
    (hq : ∀ l ∈ q, l.key.kind = .async) :
    Turns (statement keep) t (Branch.statementIdsOfAll bs)
      (⟨owner, symbol, before, []⟩ :: (leaderFrames q ++ [])) others fun _ => True := by
  have hturns := @sealsLines keep clauses hwf t [] q owner symbol before bs others h hshape hfresh hq
    (by simp) (fun _ => .inl rfl)
  by_cases hends : clauses.endsInline = true
  · obtain ⟨init, l, parts, newline, rfl, hl, hline⟩ := exists_last_line clauses hwf hends hshape hfresh
    rw [openParts, if_pos hends, List.dropLast_concat] at hturns
    rw [Branch.statementIdsOfAll_append, Branch.statementIdsOfAll, Branch.statementIdsOfAll,
      List.append_nil, statementIds_line hl]
    refine hturns.andThen ?_
    rintro u run others' hu ⟨-, hlast⟩
    have hrun := hlast hends
    rw [List.getLast?_concat] at hrun
    obtain ⟨init', rfl⟩ := List.getLast?_eq_some_iff.mp hrun
    have hplace : u.Holds (Context.fill (⟨owner, symbol, before ++ init', []⟩ ::
        leaderFrames q ++ []) [l] ++ others') := by
      simpa [Context.fill] using hu
    have hstep := @statement_line keep u _ others' parts newline l hplace hl hline
    have hfill : Context.fill (⟨owner, symbol, before ++ init', []⟩ :: leaderFrames q) [l] =
        [ledBlock q (.node owner symbol (before ++ init' ++ [l]))] := by
      have heq := fill_ledBlock q [] (.node owner symbol (before ++ init' ++ [l]))
      simpa [Context.fill] using heq
    have hafter : ∀ f ∈ (⟨owner, symbol, before ++ init', []⟩ :: leaderFrames q : Context),
        f.after = [] := by
      cases q <;> simp [leaderFrames]
    rw [closing_append hafter hfill, closing] at hstep
    rw [Context.fill_append, hfill] at hplace
    rw [collapseNode_top hplace, ite_self] at hstep
    exact (Turns.stay hu trivial).skip hstep
  · rw [openParts, if_neg hends] at hturns
    exact hturns.mono fun _ _ => trivial

/-- The block without the trivia of its first leaf, seen from the suite. -/
theorem exists_bare_ledBlock {s : Branch} {cs : List Branch} (hne : before ≠ [])
    (hq : ∀ l ∈ q, l.key.kind = .async) :
    ∃ q' before', (ledBlock q (.node owner symbol (before ++ s :: cs))).bare =
      ledBlock q' (.node owner symbol (before' ++ s :: cs)) ∧ ∀ l ∈ q', l.key.kind = .async := by
  cases q with
  | none =>
    obtain ⟨b, rest, rfl⟩ := List.exists_cons_of_ne_nil hne
    exact ⟨none, b.bare :: rest, rfl, by simp⟩
  | some l =>
    refine ⟨some ⟨l.id, l.wrapper, l.k, l.key.bare⟩, before, rfl, ?_⟩
    intro l' hl'
    rw [← Option.some.inj hl']
    exact hq l rfl

/-- A block that goes at a suite. The rest of its clauses, if there are more, is visited in vain. -/
theorem turns_suite_goes {f : Frame} {above : Context} {s : Branch} {cs : List Branch}
    (h : t.Holds (Context.fill (f :: above)
      [ledBlock q (.node owner symbol (before ++ s :: cs))] ++ others))
    (hne : before ≠ []) (hfull : ∀ b ∈ before ++ s :: cs, b.shape.Full)
    (hq : ∀ l ∈ q, l.key.kind = .async) (hunled : q = none → Unled f.before)
    (hs : s.isSuite = true) (hfresh : ∀ x ∈ s.shape.tokens, x.kind ≠ .verbatim)
    (hloose : ∀ (u : Tree) (q' : Option Leader) (before' others' : List Branch),
      u.Holds (Context.fill (⟨owner, symbol, before' ++ [s], []⟩ :: (leaderFrames q' ++ [])) cs ++
        others') → (∀ l ∈ q', l.key.kind = .async) →
      Turns (statement keep) u (Branch.statementIdsOfAll cs)
        (⟨owner, symbol, before' ++ [s], []⟩ :: (leaderFrames q' ++ [])) others' fun _ => True)
    {leaf : Leaf}
    (hsealed : sealed? keep (leaderTokens q ++ Branch.tokensOfAll (before ++ s :: cs)) =
      some leaf) :
    Turns (statement keep) t (s.id :: Branch.statementIdsOfAll cs) (f :: above) others fun run =>
      ∃ m, run = [.leaf m leaf] := by
  have hblock : (ledBlock q (.node owner symbol (before ++ s :: cs))).shape.Full :=
    full_ledBlock (by simp) hfull
  have hstep := @Collapse.statement_suite keep t _ q owner symbol before cs others s h hq
    (by simpa using hunled) hs hfresh
  have htokens : (ledBlock q (.node owner symbol (before ++ s :: cs))).shape.tokens =
      leaderTokens q ++ Branch.tokensOfAll (before ++ s :: cs) := by
    rw [tokens_ledBlock, tokens_node]
  obtain ⟨y, ys, hleaves⟩ := List.exists_cons_of_ne_nil (Branch.leaves_ne_nil_of_full hblock)
  have hys : ys ≠ [] := by
    rintro rfl
    have hlength := congrArg List.length htokens
    have hfront := leavesOfAll_ne_nil hne fun b hb => hfull b (by simp [hb])
    have hback := Branch.leaves_ne_nil_of_full (hfull s (by simp))
    rw [← List.length_pos_iff] at hfront hback
    simp [Branch.tokens_shape, hleaves, Branch.tokensOfAll, Branch.leavesOfAll] at hlength
    omega
  rw [← htokens, Branch.tokens_shape, hleaves, List.map_cons, sealed?] at hsealed
  split at hsealed
  · next hclear =>
    rw [misses_node keep h hblock, hleaves, List.map_cons, if_pos hclear] at hstep
    obtain ⟨u, hok, -, hu, -⟩ := collapseNode_place h hblock hleaves hys
    rw [hok] at hstep
    rw [Option.some.inj hsealed] at hu
    obtain ⟨q', before', hbare, hq'⟩ := @exists_bare_ledBlock q owner symbol before s cs hne hq
    rw [hbare] at hu
    have hfill : Context.fill (⟨owner, symbol, before' ++ [s], []⟩ :: (leaderFrames q' ++ [])) cs =
        [ledBlock q' (.node owner symbol (before' ++ s :: cs))] := by
      have heq := fill_ledBlock q' [] (.node owner symbol (before' ++ s :: cs))
      simpa [Context.fill] using heq
    have hview : u.Holds (Context.fill (⟨owner, symbol, before' ++ [s], []⟩ ::
        (leaderFrames q' ++ [])) cs ++
        (Context.fill (f :: above) [.leaf t.size leaf] ++ others)) := by
      rw [hfill]
      exact hu.of_perm List.perm_middle
    obtain ⟨v, run, others', hswept, hv, ⟨more, rfl⟩, -⟩ := hloose u q' before' _ hview hq'
    rw [← List.append_assoc] at hv
    exact ⟨v, [.leaf t.size leaf], _, .cons hstep hswept, hv.of_perm (List.perm_append_comm_assoc ..),
      List.suffix_append _ _, t.size, rfl⟩
  · cases hsealed

/-- A block that goes at its first suite. -/
theorem turns_toSuite (clauses : Clauses) {t : Tree} {f : Frame} {above : Context}
    {before bs others : List Branch} (hwf : clauses.Wf) (hsuite : clauses.hasSuite = true)
    (h : t.Holds (Context.fill (⟨owner, symbol, before, []⟩ :: (leaderFrames q ++ f :: above)) bs ++
      others))
    (hshape : bs.map Branch.shape = clauses.shapes) (hfull : ∀ b ∈ before ++ bs, b.shape.Full)
    (hfresh : ∀ x ∈ Branch.tokensOfAll bs, x.kind ≠ .verbatim)
    (hq : ∀ l ∈ q, l.key.kind = .async) (hunled : q = none → Unled f.before) {leaf : Leaf}
    (hsealed : sealed? keep (leaderTokens q ++ Branch.tokensOfAll before ++
      (sealToSuite keep clauses).tokens) = some leaf) :
    Turns (statement keep) t (Branch.statementIdsOfAll bs) (f :: above) others fun run =>
      ∃ m, run = [.leaf m leaf] := by
  cases clauses with
  | inline header body => simp [Clauses.hasSuite] at hsuite
  | suite header newline indent body dedent =>
    obtain ⟨hs, last, rfl, rfl, hlast⟩ := List.map_eq_append_iff.mp hshape
    obtain ⟨s, rfl, hx⟩ := List.map_eq_singleton_iff.mp hlast
    have hplace : t.Holds (Context.fill (f :: above)
        [ledBlock q (.node owner symbol (before ++ hs ++ s :: []))] ++ others) := by
      rw [← fill_ledBlock]
      simpa [Context.fill] using h
    have htokens : (sealToSuite keep (.suite (hs.map Branch.shape) newline indent body dedent)).tokens
        = Branch.tokensOfAll (hs ++ [s]) := tokens_eq_of_map hshape
    rw [htokens] at hsealed
    rw [Branch.statementIdsOfAll_append, IsHeader.statementIds hwf.1, List.nil_append,
      Branch.statementIdsOfAll, statementIds_suite (isSuite_of_shape hx)]
    refine turns_suite_goes hplace (by simp [hwf.1.ne_nil]) (by simpa using hfull) hq hunled
      (isSuite_of_shape hx) (fun x hx => hfresh x (by simp [hx])) ?_ (by simpa using hsealed)
    exact fun u q' before' others' hu _ => Turns.stay hu trivial
  | suiteThen header newline indent body dedent rest =>
    obtain ⟨hs, last, rfl, rfl, hlast⟩ := List.map_eq_append_iff.mp hshape
    obtain ⟨s, cs, rfl, hx, hcs⟩ := List.map_eq_cons_iff.mp hlast
    have hplace : t.Holds (Context.fill (f :: above)
        [ledBlock q (.node owner symbol (before ++ hs ++ s :: cs))] ++ others) := by
      rw [← fill_ledBlock]
      simpa [Context.fill] using h
    have htokens : (sealToSuite keep
        (.suiteThen (hs.map Branch.shape) newline indent body dedent rest)).tokens =
        Branch.tokensOfAll (hs ++ s :: cs) := tokens_eq_of_map hshape
    rw [htokens] at hsealed
    rw [Branch.statementIdsOfAll_append, IsHeader.statementIds hwf.1.1, List.nil_append,
      Branch.statementIdsOfAll, statementIds_suite (isSuite_of_shape hx)]
    refine turns_suite_goes hplace (by simp [hwf.1.1.ne_nil]) (by simpa using hfull) hq hunled
      (isSuite_of_shape hx) (fun x hx => hfresh x (by simp [hx])) ?_ (by simpa using hsealed)
    exact fun u q' before' others' hu hq' =>
      turns_loose hwf.2 hu hcs (fun x hx => hfresh x (by simp [hx])) hq'
  | inlineThen header body rest =>
    obtain ⟨⟨hheader, -, hbody⟩, hrest⟩ := hwf
    obtain ⟨start, cs, rfl, hstart, hcs⟩ := List.map_eq_append_iff.mp hshape
    obtain ⟨hs, ls, rfl, rfl, hls⟩ := List.map_eq_append_iff.mp hstart
    have hne := clauses_ne_nil hrest hcs
    have hplace : t.Holds (Context.fill (⟨owner, symbol, before ++ hs, cs⟩ ::
        (leaderFrames q ++ f :: above)) ls ++ others) := by
      simpa [Context.fill] using h
    have hturns := @turns_lines keep t _ _ _ _ _ hplace (by simpa using hne) hls hbody
      (fun x hx => hfresh x (by simp [hx]))
    rw [Branch.statementIdsOfAll_append, Branch.statementIdsOfAll_append,
      IsHeader.statementIds hheader, List.nil_append]
    refine hturns.andThen ?_
    intro u xs others' hu hxs
    have hnext : u.Holds (Context.fill (⟨owner, symbol, before ++ hs ++ xs, []⟩ ::
        (leaderFrames q ++ f :: above)) cs ++ others') := by
      simpa [Context.fill] using hu
    have hxsfull := full_of_lines (fun line hline => by
      obtain ⟨l, hl, rfl⟩ := List.mem_map.mp hline
      exact sealLine_wf (hbody l hl)) hxs
    refine turns_toSuite rest hrest hsuite hnext hcs ?_ (fun x hx => hfresh x (by simp [hx])) hq
      hunled ?_
    · intro b hb
      simp only [List.mem_append] at hb
      rcases hb with ((hb | hb) | hb) | hb
      · exact hfull b (by simp [hb])
      · exact hfull b (by simp [hb])
      · exact hxsfull b hb
      · exact hfull b (by simp [hb])
    · rw [sealToSuite, tokens_inlineThen, ← hxs] at hsealed
      simpa using hsealed

end Clauses

end Collapse

end LineScope
