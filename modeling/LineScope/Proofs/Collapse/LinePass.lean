import LineScope.Proofs.Collapse.Clauses

/-!
# The line pass over a program

Every newline of a program is reached without error, and `Collapse.blockTokens` says what is left.
The proof follows the nesting of statements: decorators, the block behind its `async`, matches with
their cases.
-/
namespace LineScope

namespace Collapse

open LineScope.Tree Grammar

variable {keep : LineSet}

section Decorators

theorem newlineIds_subset_ids (b : Branch) : newlineIds b.leaves ⊆ b.ids := by
  intro n hn
  obtain ⟨x, hx, rfl⟩ := List.mem_map.mp hn
  exact b.leaves_map_fst_sublist.subset (List.mem_map_of_mem (List.mem_of_mem_filter hx))

theorem exists_decorator {b : Branch} {d : Decorator} (h : b.shape = d.shape) :
    ∃ id n hs, b = .node id .decorator (hs ++ [.leaf n d.newline]) ∧
      hs.map Branch.shape = d.parts := by
  obtain ⟨id, parts, rfl, hparts⟩ := Branch.exists_node h
  obtain ⟨hs, last, rfl, hhs, hlast⟩ := List.map_eq_append_iff.mp hparts
  obtain ⟨x, rfl, hx⟩ := List.map_eq_singleton_iff.mp hlast
  obtain ⟨n, rfl⟩ := Branch.exists_leaf hx
  exact ⟨id, n, hs, rfl, hhs⟩

theorem newlineIds_decorator {id n : NodeId} {hs : List Branch} {newline : Leaf}
    (hheader : IsHeader (hs.map Branch.shape)) (hnewline : newline.kind = .newline) :
    newlineIds (Branch.node id .decorator (hs ++ [.leaf n newline])).leaves = [n] := by
  rw [Branch.leaves, Branch.leavesOfAll_append, newlineIds_append, hheader.newlineIds]
  simp [newlineIds, Branch.leavesOfAll, Branch.leaves, hnewline]

variable {t : Tree} {f : Frame} {above : Context} {others : List Branch} {id n : NodeId}
  {hs : List Branch} {newline : Leaf}

theorem closedBy_decorator
    (h : t.Holds (Context.fill (f :: above) [.node id .decorator (hs ++ [.leaf n newline])] ++
      others)) (hafter : f.after ≠ []) (hsymbol : f.symbol ≠ .decorators) : closedBy t n = id := by
  have hplace : t.Holds (Context.fill (⟨id, .decorator, hs, []⟩ :: f :: above)
      [.leaf n newline] ++ others) := by
    simpa [Context.fill] using h
  have htop : furthestEndingWith t n = id := by
    have heq := furthestEndingWith_eq hplace
    rw [closing_of_nil _ rfl, closing_of_ne_nil _ hafter] at heq
    exact heq
  have hparent : t.parent? id = some f.id := h.parent? (List.mem_singleton_self _)
  have hother : t.isSymbol f.id .decorators = false := by
    simpa [isSymbol, h.symbol?_parent] using hsymbol
  simp [closedBy, htop, hparent, hother]

theorem closedBy_decorators {group : NodeId} {before after : List Branch}
    (h : t.Holds (Context.fill (f :: above) [.node group .decorators
      (before ++ .node id .decorator (hs ++ [.leaf n newline]) :: after)] ++ others))
    (hafter : f.after ≠ []) : closedBy t n = group := by
  have hplace : t.Holds (Context.fill (⟨id, .decorator, hs, []⟩ ::
      ⟨group, .decorators, before, after⟩ :: f :: above) [.leaf n newline] ++ others) := by
    simpa [Context.fill] using h
  have hmiddle : t.Holds (Context.fill (⟨group, .decorators, before, after⟩ :: f :: above)
      [.node id .decorator (hs ++ [.leaf n newline])] ++ others) := by
    simpa [Context.fill] using h
  have hgroup : t.symbol? group = some .decorators := hmiddle.symbol?_parent
  have htop := furthestEndingWith_eq hplace
  rw [closing_of_nil _ rfl] at htop
  by_cases hnil : after = []
  · rw [closing_of_nil _ hnil, closing_of_ne_nil _ hafter] at htop
    simp only [Branch.id] at htop
    simp only [closedBy, htop, isSymbol, hgroup]
    cases t.parent? group <;> simp
  · rw [closing_of_ne_nil _ hnil] at htop
    simp only [Branch.id] at htop
    have hparent : t.parent? id = some group := hmiddle.parent? (List.mem_singleton_self _)
    have hsymbol : t.symbol? id = some .decorator :=
      (hmiddle.run_grows _ (List.mem_singleton_self _)).symbol?_node
    simp [closedBy, htop, hparent, isSymbol, hsymbol, hgroup]

theorem decorator_leaves (hheader : IsHeader (hs.map Branch.shape)) :
    ∃ y ys, (Branch.node id .decorator (hs ++ [.leaf n newline])).leaves = y :: ys ∧ ys ≠ [] := by
  obtain ⟨y, ys, hy⟩ :=
    List.exists_cons_of_ne_nil (leavesOfAll_ne_nil hheader.ne_nil hheader.full)
  refine ⟨y, ys ++ [(n, newline)], ?_, by simp⟩
  simp [Branch.leaves, Branch.leavesOfAll, hy]

theorem decorator_full (hheader : IsHeader (hs.map Branch.shape)) :
    (Branch.node id .decorator (hs ++ [.leaf n newline])).shape.Full := by
  refine Branch.full_node (by simp) fun b hb => ?_
  rcases List.mem_append.mp hb with hb | hb
  · exact hheader.full b hb
  · rw [List.mem_singleton.mp hb]
    exact .leaf _

/-- A newline among the leaves of decorators is that of one of them. -/
theorem exists_decorator_of_mem {ds : List Decorator} {bs : List Branch}
    (hshape : bs.map Branch.shape = ds.map Decorator.shape) (hwf : ∀ d ∈ ds, d.Wf)
    (hn : n ∈ newlineIds (Branch.leavesOfAll bs)) :
    ∃ before id hs newline after,
      bs = before ++ .node id .decorator (hs ++ [.leaf n newline]) :: after := by
  induction bs generalizing ds with
  | nil => simp [newlineIds, Branch.leavesOfAll] at hn
  | cons b rest ih =>
    obtain ⟨d, ds, rfl, hd, hds⟩ := List.map_eq_cons_iff.mp hshape.symm
    rw [List.forall_mem_cons] at hwf
    obtain ⟨id, m, hs, rfl, hhs⟩ := exists_decorator hd.symm
    have hheader : IsHeader (hs.map Branch.shape) := hhs ▸ hwf.1.1
    rw [Branch.leavesOfAll, newlineIds_append, newlineIds_decorator hheader hwf.1.2,
      List.mem_append, List.mem_singleton] at hn
    rcases hn with rfl | hn
    · exact ⟨[], id, hs, d.newline, rest, rfl⟩
    · obtain ⟨before, id', hs', newline, after, rfl⟩ := ih hds.symm hwf.2 hn
      exact ⟨_ :: before, id', hs', newline, after, rfl⟩

/-- All newlines in a region of decorators decide about the region. -/
theorem turns_allClosed {b : Branch} (h : t.Holds (Context.fill (f :: above) [b] ++ others))
    (hrooted : Context.Rooted (f :: above)) (hfull : b.shape.Full) (hasync : b.isAsync = false)
    {y : NodeId × Leaf} {ys : List (NodeId × Leaf)} (hleaves : b.leaves = y :: ys) (hys : ys ≠ [])
    (hne : newlineIds b.leaves ≠ [])
    (hstep : ∀ n ∈ newlineIds b.leaves, logicalLine keep t n =
      if misses t keep [b.id] then collapseNode t b.id else ⟨t, .ok false⟩) :
    Turns (logicalLine keep) t (newlineIds b.leaves) (f :: above) others fun run => ∃ x : Branch,
      run = [x] ∧ x.shape.Full ∧ x.isAsync = false ∧
      x.shape.tokens = sealRun keep b.shape.tokens := by
  refine (turns_region h hrooted hfull hleaves hys hne (newlineIds_subset_ids b) hstep).mono ?_
  rintro run ⟨x, rfl, hx, hcases, htokens⟩
  refine ⟨x, rfl, hx, ?_, htokens⟩
  rcases hcases with rfl | ⟨m, leaf, rfl, hkind⟩
  · exact hasync
  · simp [Branch.isAsync, hkind]

theorem turns_decorator {d : Decorator} (hwf : d.Wf) {b : Branch}
    (h : t.Holds (Context.fill (f :: above) [b] ++ others)) (hrooted : Context.Rooted (f :: above))
    (hafter : f.after ≠ []) (hsymbol : f.symbol ≠ .decorators) (hshape : b.shape = d.shape) :
    Turns (logicalLine keep) t (newlineIds b.leaves) (f :: above) others fun run => ∃ x : Branch,
      run = [x] ∧ x.shape.Full ∧ x.isAsync = false ∧
      x.shape.tokens = sealRun keep b.shape.tokens := by
  obtain ⟨id, n, hs, rfl, hhs⟩ := exists_decorator hshape
  have hheader : IsHeader (hs.map Branch.shape) := hhs ▸ hwf.1
  have hnewlines := @newlineIds_decorator id n hs d.newline hheader hwf.2
  obtain ⟨y, ys, hleaves, hys⟩ := decorator_leaves hheader
  refine turns_allClosed h hrooted (decorator_full hheader) rfl hleaves hys (by simp [hnewlines]) ?_
  rw [hnewlines]
  intro m hm
  rw [List.mem_singleton.mp hm]
  have hplace : t.Holds (Context.fill (⟨id, .decorator, hs, []⟩ :: f :: above)
      [.leaf n d.newline] ++ others) := by
    simpa [Context.fill] using h
  have hline := @logicalLine_closedBy keep t _ _ _ _ hplace (hrooted.cons _) (by simp) (by simp)
  simp only [Branch.id, closedBy_decorator h hafter hsymbol] at hline
  exact hline

theorem turns_group {ds : List Decorator} (hne : ds ≠ []) (hwf : ∀ d ∈ ds, d.Wf) {b : Branch}
    (h : t.Holds (Context.fill (f :: above) [b] ++ others)) (hrooted : Context.Rooted (f :: above))
    (hafter : f.after ≠ []) (hshape : b.shape = .node .decorators (ds.map Decorator.shape)) :
    Turns (logicalLine keep) t (newlineIds b.leaves) (f :: above) others fun run => ∃ x : Branch,
      run = [x] ∧ x.shape.Full ∧ x.isAsync = false ∧
      x.shape.tokens = sealRun keep b.shape.tokens := by
  obtain ⟨group, bs, rfl, hbs⟩ := Branch.exists_node hshape
  have hfull : ∀ b ∈ bs, b.shape.Full := by
    intro b hb
    have hmem : b.shape ∈ ds.map Decorator.shape := hbs ▸ List.mem_map_of_mem hb
    obtain ⟨d, hd, heq⟩ := List.mem_map.mp hmem
    obtain ⟨id, n, hs, rfl, hhs⟩ := exists_decorator heq.symm
    exact decorator_full (hhs ▸ (hwf d hd).1)
  obtain ⟨d, rest, rfl⟩ := List.exists_cons_of_ne_nil hne
  obtain ⟨b, more, rfl, hb, -⟩ := List.map_eq_cons_iff.mp hbs
  obtain ⟨id, n, hs, rfl, hhs⟩ := exists_decorator hb
  have hd := hwf d (by simp)
  have hheader : IsHeader (hs.map Branch.shape) := hhs ▸ hd.1
  obtain ⟨y, ys, hleaves, hys⟩ := @decorator_leaves id n hs d.newline hheader
  have hall : (Branch.node group .decorators
      (.node id .decorator (hs ++ [.leaf n d.newline]) :: more)).leaves =
      y :: (ys ++ Branch.leavesOfAll more) := by
    rw [Branch.leaves, Branch.leavesOfAll, hleaves, List.cons_append]
  refine turns_allClosed h hrooted (Branch.full_node (by simp) hfull) rfl hall (by simp [hys]) ?_ ?_
  · rw [Branch.leaves, Branch.leavesOfAll, newlineIds_append, newlineIds_decorator hheader hd.2]
    simp
  · intro m hm
    obtain ⟨before, id', hs', newline, after, heq⟩ := exists_decorator_of_mem hbs hwf hm
    rw [heq] at h ⊢
    have hplace : t.Holds (Context.fill (⟨id', .decorator, hs', []⟩ ::
        ⟨group, .decorators, before, after⟩ :: f :: above) [.leaf m newline] ++ others) := by
      simpa [Context.fill] using h
    have hline := @logicalLine_closedBy keep t _ _ _ _ hplace ((hrooted.cons _).cons _) (by simp)
      (by simp)
    simp only [Branch.id, closedBy_decorators h hafter] at hline
    exact hline

theorem turns_decorators {ds : List Decorator} (hwf : ∀ d ∈ ds, d.Wf) {b : Branch}
    (h : t.Holds (Context.fill (f :: above) [b] ++ others)) (hrooted : Context.Rooted (f :: above))
    (hafter : f.after ≠ []) (hsymbol : f.symbol ≠ .decorators)
    (hshape : [b.shape] = decoratorsShape ds) :
    Turns (logicalLine keep) t (newlineIds b.leaves) (f :: above) others fun run => ∃ x : Branch,
      run = [x] ∧ x.shape.Full ∧ x.isAsync = false ∧
      x.shape.tokens = sealRun keep b.shape.tokens := by
  match ds with
  | [] => simp [decoratorsShape] at hshape
  | [d] => exact turns_decorator (hwf d (by simp)) h hrooted hafter hsymbol (List.singleton_inj.mp hshape)
  | d :: e :: ds => exact turns_group (by simp) hwf h hrooted hafter (List.singleton_inj.mp hshape)

end Decorators

section Statements

theorem exists_decoratorsShape (d : Decorator) (ds : List Decorator) :
    ∃ s, decoratorsShape (d :: ds) = [s] := by
  cases ds with
  | nil => exact ⟨_, rfl⟩
  | cons e ds => exact ⟨_, rfl⟩

theorem not_isAsync_decorators {ds : List Decorator} {b : Branch}
    (h : [b.shape] = decoratorsShape ds) : b.isAsync = false := by
  match ds with
  | [] => simp [decoratorsShape] at h
  | [d] =>
    obtain ⟨id, parts, rfl, -⟩ := Branch.exists_node (List.singleton_inj.mp h)
    rfl
  | d :: e :: ds =>
    obtain ⟨id, parts, rfl, -⟩ := Branch.exists_node (List.singleton_inj.mp h)
    rfl

theorem Trimmed.decorate {shape : Shape} {tokens : List Leaf} (h : Trimmed keep shape tokens)
    {ds : List Decorator} (hwf : ∀ d ∈ ds, d.Wf) :
    Trimmed keep (decorate ds shape)
      (sealRun keep (Shape.tokensOfAll (decoratorsShape ds)) ++ tokens) := by
  cases ds with
  | nil =>
    have hnil : sealRun keep (Shape.tokensOfAll (decoratorsShape [])) = [] := by
      simp [sealRun, decoratorsShape, Shape.tokensOfAll, fold]
    rwa [hnil, List.nil_append]
  | cons d ds =>
    intro t f above b others hholds hrooted hunled hshape
    obtain ⟨s, hs⟩ := exists_decoratorsShape d ds
    change b.shape = .node .decorated (decoratorsShape (d :: ds) ++ [shape]) at hshape
    rw [hs] at hshape
    obtain ⟨id, parts, rfl, hparts⟩ := Branch.exists_node hshape
    obtain ⟨x, rest, rfl, rfl, hrest⟩ := List.map_eq_cons_iff.mp hparts
    obtain ⟨y, rfl, hy⟩ := List.map_eq_singleton_iff.mp hrest
    have hplace : t.Holds (Context.fill (⟨id, .decorated, [], [y]⟩ :: f :: above) [x] ++ others) := by
      simpa [Context.fill] using hholds
    have hsecond : t.Holds (Context.fill (⟨id, .decorated, [x], []⟩ :: f :: above) [y] ++ others) := by
      simpa [Context.fill] using hholds
    have hleaves : y.leaves ≠ [] := by
      obtain ⟨-, -, -, -, -, -, z, -, hz, -⟩ := h t _ _ y others hsecond (hrooted.cons _)
        (by simpa [Unled] using not_isAsync_decorators hs.symm) hy
      have hne := List.getLast?_isSome.mpr (Branch.leaves_ne_nil_of_full hz.full)
      rw [hz.last] at hne
      exact List.getLast?_isSome.mp hne
    have hturns := @turns_decorators keep t _ _ others _ hwf x hplace (hrooted.cons _) (by simp) (by simp)
      hs.symm
    have hall : newlineIds (Branch.node id .decorated [x, y]).leaves.dropLast =
        newlineIds x.leaves ++ newlineIds y.leaves.dropLast := by
      simp [Branch.leaves, Branch.leavesOfAll, List.dropLast_append_of_ne_nil hleaves]
    rw [hall]
    refine hturns.andThen ?_
    rintro u run others' hu ⟨x', rfl, hx', hasync, htokens⟩
    have hnext : u.Holds (Context.fill (⟨id, .decorated, [x'], []⟩ :: f :: above) [y] ++ others') := by
      simpa [Context.fill] using hu
    have hdef := h u _ _ y others' hnext (hrooted.cons _) (by simpa [Unled] using hasync) hy
    refine hdef.through ?_
    rintro run ⟨y', rfl, hy', rfl⟩
    refine ⟨[.node id .decorated [x', y']], by simp [Context.fill], _, rfl, ?_, ?_⟩
    · have hall := @TrimsAll.append [x] [x'] [y] [y'] (.of_trims hy') (by simpa using hx')
      exact hall.node (by simp) (by simp)
    · rw [hs]
      simp [Branch.shape, Shape.tokens, Shape.tokensOfAll, htokens]

theorem ne_of_mem_blockForms {symbol : Symbol} (h : symbol ∈ blockForms) :
    symbol ≠ .suite ∧ symbol ≠ .decorator := by
  constructor <;> rintro rfl <;> simp [blockForms] at h

def ledTokens (keep : LineSet) (lead : Option Lead) (clauses : Clauses) : List Leaf :=
  match lead with
  | none => clauseTokens keep .free [] clauses
  | some lead => clauseTokens keep .led [lead.key] clauses

theorem innerTokens_compound (keep : LineSet) (decorators : List Decorator) (lead : Option Lead)
    (symbol : Symbol) (clauses : Clauses) :
    innerTokens keep (.compound decorators lead symbol clauses) =
      sealRun keep (Shape.tokensOfAll (decoratorsShape decorators)) ++
        ledTokens keep lead clauses := by
  cases lead <;> rfl

theorem TrimmedClauses.trimmed {clauses : Clauses} (h : TrimmedClauses keep clauses)
    (hwf : clauses.Wf) {lead : Option Lead} (hlead : ∀ l ∈ lead, l.Wf) {symbol : Symbol}
    (hsymbol : symbol ∈ blockForms) :
    Trimmed keep (leadShape lead (.node symbol clauses.shapes)) (ledTokens keep lead clauses) := by
  have hforms := ne_of_mem_blockForms hsymbol
  intro t f above b others hholds hrooted hunled hshape
  cases lead with
  | none =>
    obtain ⟨owner, bs, rfl, hbs⟩ := Branch.exists_node hshape
    have hstage : Stage keep f.before .free [] [] [] clauses.tokens [] [] :=
      ⟨by simp, by simp, by simp, by simpa using hunled, rfl, rfl⟩
    have hturns := h .free t f above owner symbol [] [] [] bs others [] [] hstage hholds hrooted hbs
    refine hturns.mono ?_
    rintro run ⟨lead', parts, rfl, hlength, -, hparts, htokens⟩
    obtain rfl := List.length_eq_zero_iff.mp hlength
    refine ⟨_, rfl, hparts.node hforms.1 hforms.2, ?_⟩
    rw [Branch.tokens_shape]
    exact htokens
  | some lead =>
    obtain ⟨hwrapper, hkind⟩ := hlead lead rfl
    obtain ⟨id, parts, rfl, hparts⟩ := Branch.exists_node hshape
    obtain ⟨x, rest, rfl, hx, hrest⟩ := List.map_eq_cons_iff.mp hparts
    obtain ⟨k, rfl⟩ := Branch.exists_leaf hx
    obtain ⟨y, rfl, hy⟩ := List.map_eq_singleton_iff.mp hrest
    obtain ⟨owner, bs, rfl, hbs⟩ := Branch.exists_node hy
    have hstage : Stage keep [] .led [.leaf k lead.key] [] [] clauses.tokens [] [lead.key] :=
      ⟨by simpa [Branch.shape] using Shape.Full.leaf lead.key, by simp, by simp,
        ⟨k, lead.key, rfl, hkind⟩, rfl, rfl, by simp⟩
    have hplace : t.Holds (Context.fill (⟨id, lead.wrapper, [], []⟩ :: f :: above)
        ([.leaf k lead.key] ++ [.node owner symbol ([] ++ [] ++ bs)]) ++ others) := by
      simpa [Context.fill] using hholds
    have hturns := h .led t _ _ owner symbol _ [] [] bs others [] _ hstage hplace (hrooted.cons _) hbs
    have hleaves := leavesOfAll_clauses_ne_nil hbs hwf
    have hall : newlineIds (Branch.node id lead.wrapper
        [.leaf k lead.key, .node owner symbol bs]).leaves.dropLast =
        newlineIds (Branch.leavesOfAll bs).dropLast := by
      have hdrop : (Branch.node id lead.wrapper [.leaf k lead.key, .node owner symbol bs]).leaves.dropLast
          = [(k, lead.key)] ++ (Branch.leavesOfAll bs).dropLast := by
        rw [← List.dropLast_append_of_ne_nil hleaves]
        simp [Branch.leaves, Branch.leavesOfAll]
      rw [hdrop, newlineIds_append]
      simp [newlineIds, hkind]
    rw [hall]
    refine hturns.through ?_
    rintro run ⟨lead', parts, rfl, -, hfull, hparts, htokens⟩
    refine ⟨[.node id lead.wrapper (lead' ++ [.node owner symbol parts])], by simp [Context.fill], _,
      rfl, ?_, ?_⟩
    · have hnode := @TrimsAll.node _ _ hparts owner symbol hforms.1 hforms.2
      have hall := @TrimsAll.append [.leaf k lead.key] lead' _ _ (.of_trims hnode) hfull
      refine hall.node ?_ ?_ <;> rintro heq <;> simp [heq] at hwrapper
    · rw [Branch.tokens_shape, ledTokens]
      simpa [Branch.leaves, Branch.leavesOfAll, Branch.tokensOfAll] using htokens

theorem trimmed_choice {header : List Shape} {newline indent dedent : Leaf} {options : Block}
    (hheader : IsHeader header) (hnewline : newline.kind = .newline)
    (hindent : indent.kind = .indent) (hdedent : dedent.kind = .dedent)
    (hoptions : Closed keep options.shapes (blockTokens keep options)) :
    Trimmed keep (Statement.choice header newline indent options dedent).shape
      (innerTokens keep (.choice header newline indent options dedent)) := by
  intro t f above b others hholds hrooted hunled hshape
  obtain ⟨id, parts, rfl, hparts⟩ := Branch.exists_node hshape
  obtain ⟨start, last, rfl, hstart, hlast⟩ := List.map_eq_append_iff.mp hparts
  obtain ⟨x, rfl, hx⟩ := List.map_eq_singleton_iff.mp hlast
  obtain ⟨d, rfl⟩ := Branch.exists_leaf hx
  obtain ⟨hs, rest, rfl, rfl, hrest⟩ := List.map_eq_append_iff.mp hstart
  obtain ⟨x, rest, rfl, hx, hmore⟩ := List.map_eq_cons_iff.mp hrest
  obtain ⟨n, rfl⟩ := Branch.exists_leaf hx
  obtain ⟨x, cs, rfl, hx, hcs⟩ := List.map_eq_cons_iff.mp hmore
  obtain ⟨i, rfl⟩ := Branch.exists_leaf hx
  have hplace : t.Holds (Context.fill (⟨id, .matchStmt, hs, .leaf i indent :: cs ++
      [.leaf d dedent]⟩ :: f :: above) [.leaf n newline] ++ others) := by
    simpa [Context.fill] using hholds
  have hheaderPlace : t.Holds (Context.fill (⟨id, .matchStmt, [], .leaf n newline ::
      .leaf i indent :: cs ++ [.leaf d dedent]⟩ :: f :: above) hs ++ others) := by
    simpa [Context.fill] using hholds
  have hstep := @logicalLine_match keep t others _ _ _ hplace rfl (hrooted.cons _) hheader.ne_nil
  have hturns := turns_header hheaderPlace hstep hheader.ne_nil hheader.full
  have hend : (Branch.leavesOfAll (hs ++ .leaf n newline :: .leaf i indent :: cs ++
      [.leaf d dedent])).getLast? = some (d, dedent) := by
    simp [Branch.leavesOfAll, Branch.leaves, List.getLast?_append, List.getLast?_cons]
  have hall : newlineIds (Branch.node id .matchStmt (hs ++ .leaf n newline :: .leaf i indent :: cs ++
      [.leaf d dedent])).leaves.dropLast = [n] ++ newlineIds (Branch.leavesOfAll cs) := by
    rw [Branch.leaves, newlineIds_dropLast (by rw [hend]; simp [hdedent]), List.append_assoc,
      Branch.leavesOfAll_append, newlineIds_append, hheader.newlineIds]
    simp [newlineIds, Branch.leavesOfAll, Branch.leaves, hnewline, hindent, hdedent]
  rw [hall]
  refine hturns.andThen ?_
  rintro u run others' hu ⟨hne, hfull, htokens⟩
  have hnext : u.Holds (Context.fill (⟨id, .matchStmt, run ++ [.leaf n newline, .leaf i indent],
      [.leaf d dedent]⟩ :: f :: above) cs ++ others') := by
    simpa [Context.fill] using hu
  have hblock := hoptions u _ _ cs others' hnext (hrooted.cons _)
    (by simp [Unled, Branch.isAsync, hindent]) (by simp) hcs
  refine hblock.through ?_
  rintro xs ⟨hxs, hblockTokens⟩
  refine ⟨[.node id .matchStmt (run ++ .leaf n newline :: .leaf i indent :: xs ++ [.leaf d dedent])],
    by simp [Context.fill], _, rfl, ?_, ?_⟩
  · refine TrimsAll.node ⟨by simp, ?_, ?_, ?_⟩ (by simp) (by simp)
    · intro b hb
      simp only [List.mem_append, List.mem_cons, List.not_mem_nil, or_false] at hb
      rcases hb with (hb | rfl | rfl | hb) | rfl
      · exact hfull b hb
      · exact .leaf _
      · exact .leaf _
      · exact (hxs b hb).1
      · exact .leaf _
    · rw [hend]
      simp [Branch.leavesOfAll, Branch.leaves, List.getLast?_append, List.getLast?_cons]
    · intro m nl hm hkind
      rw [hend, Option.some.injEq, Prod.mk.injEq] at hm
      rw [← hm.2, hdedent] at hkind
      exact TokenKind.noConfusion hkind
  · rw [Branch.tokens_shape, Branch.leaves]
    change Branch.tokensOfAll _ = _
    rw [innerTokens, ← hblockTokens]
    simp [htokens, suiteTokens]

end Statements

mutual

theorem trimmed_statement (s : Statement) (hwf : s.Wf) (hordered : Leaf.Ordered s.tokens) :
    Trimmed keep s.shape (innerTokens keep s) := by
  cases s with
  | line line => exact trimmed_line hwf
  | definition decorators leaf => exact (trimmed_leaf hwf.2.2).decorate hwf.2.1
  | choice header newline indent options dedent =>
    obtain ⟨hheader, hnewline, hindent, hoptions, hdedent⟩ := hwf
    refine trimmed_choice hheader hnewline hindent hdedent (closed_block options hoptions ?_)
    rw [tokens_choice] at hordered
    exact hordered.sublist ((sublist_suiteTokens ..).trans (List.sublist_append_right _ _))
  | compound decorators lead symbol clauses =>
    obtain ⟨hdecorators, hlead, hsymbol, hclauses⟩ := hwf
    rw [tokens_compound] at hordered
    have htrimmed := trimmed_clauses clauses hclauses
      (hordered.sublist (List.sublist_append_right _ _))
    rw [innerTokens_compound]
    exact (htrimmed.trimmed hclauses hlead hsymbol).decorate hdecorators

theorem closed_block (block : Block) (hwf : block.Wf) (hordered : Leaf.Ordered block.tokens) :
    Closed keep block.shapes (blockTokens keep block) := by
  cases block with
  | nil => exact Closed.nil
  | cons statement rest =>
    rw [Leaf.Ordered, Block.tokens, Block.shapes, Shape.tokensOfAll, List.pairwise_append] at hordered
    exact (trimmed_statement statement hwf.1 hordered.1).closed.append
      (closed_block rest hwf.2 hordered.2.1)

theorem trimmed_clauses (clauses : Clauses) (hwf : clauses.Wf)
    (hordered : Leaf.Ordered clauses.tokens) : TrimmedClauses keep clauses := by
  cases clauses with
  | inline header body => exact trimmedClauses_inline hwf.1 hwf.2.1 hwf.2.2
  | suite header newline indent body dedent =>
    obtain ⟨hheader, hnewline, hindent, hbody, hdedent⟩ := hwf
    refine trimmedClauses_suite hheader hnewline hindent hdedent (closed_block body hbody ?_)
    rw [tokens_suite] at hordered
    exact hordered.sublist ((sublist_suiteTokens ..).trans (List.sublist_append_right _ _))
  | inlineThen header body rest =>
    refine trimmedClauses_inlineThen hwf.1.1 hwf.1.2.2 hwf.2 (trimmed_clauses rest hwf.2 ?_)
    rw [tokens_inlineThen] at hordered
    exact hordered.sublist (List.sublist_append_right _ _)
  | suiteThen header newline indent body dedent rest =>
    obtain ⟨⟨hheader, hnewline, hindent, hbody, hdedent⟩, hrest⟩ := hwf
    refine trimmedClauses_suiteThen hheader hnewline hindent hdedent (closed_block body hbody ?_)
      hrest hordered (trimmed_clauses rest hrest ?_)
    all_goals rw [tokens_suiteThen] at hordered
    · refine hordered.sublist ((sublist_suiteTokens newline indent _ dedent).trans ?_)
      exact (List.sublist_append_left _ _).trans (List.sublist_append_right _ _)
    · exact hordered.sublist ((List.sublist_append_right _ _).trans (List.sublist_append_right _ _))

end

/-- The line pass over a file. -/
theorem linePass_file {t : Tree} {root : Branch} {others : List Branch} (h : t.Holds (root :: others))
    (hid : root.id = rootId) {block : Block} {endMarker : Leaf}
    (hshape : root.shape = fileShape block endMarker) (hwf : block.Wf)
    (hordered : Leaf.Ordered block.tokens) (hkind : endMarker.kind = .endMarker) :
    ∃ u count root' others', linePass keep t = ⟨u, .ok count⟩ ∧ u.Holds (root' :: others') ∧
      root'.id = rootId ∧ root'.shape.Full ∧
      root'.shape.tokens = blockTokens keep block ++ [endMarker] := by
  obtain ⟨id, parts, rfl, hparts⟩ := Branch.exists_node hshape
  obtain ⟨bs, last, rfl, hbs, hlast⟩ := List.map_eq_append_iff.mp hparts
  obtain ⟨x, rfl, hx⟩ := List.map_eq_singleton_iff.mp hlast
  obtain ⟨e, rfl⟩ := Branch.exists_leaf hx
  obtain rfl : id = rootId := hid
  have hplace : t.Holds (Context.fill (⟨rootId, .fileInput, [], [.leaf e endMarker]⟩ :: []) bs ++
      others) := by
    simpa [Context.fill] using h
  have hturns := @closed_block keep block hwf hordered t _ _ bs others hplace rfl
    (by simp [Unled]) (by simp) hbs
  have hnewlines : newlines t = newlineIds (Branch.leavesOfAll bs) := by
    rw [newlines_eq h rfl, Branch.leaves, Branch.leavesOfAll_append, newlineIds_append]
    simp [newlineIds, Branch.leavesOfAll, Branch.leaves, hkind]
  obtain ⟨u, run, others', hswept, hu, -, hrun, htokens⟩ := hturns
  obtain ⟨count, hcount⟩ := hswept.sweep 0
  refine ⟨u, count, .node rootId .fileInput (run ++ [.leaf e endMarker]), others', ?_,
    by simpa [Context.fill] using hu, rfl, ?_, ?_⟩
  · rw [linePass, hnewlines, hcount]
  · refine Branch.full_node (by simp) fun b hb => ?_
    rcases List.mem_append.mp hb with hb | hb
    · exact (hrun b hb).1
    · rw [List.mem_singleton.mp hb]
      exact .leaf _
  · rw [← htokens, Branch.tokens_shape, Branch.leaves]
    simp [Branch.tokensOfAll, Branch.leavesOfAll, Branch.leaves]

end Collapse

end LineScope
