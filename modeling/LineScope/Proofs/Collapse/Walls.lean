import LineScope.Proofs.Collapse.Grammar
import LineScope.Proofs.Collapse.Region

/-!
# What shuts a suite off

A suite ends with a mark, so going up from a newline inside it stops below it, and it stands neither
right below another suite nor right below a match. So no step ever takes a suite for its region
without the node around it. Whatever is folded, this stays.
-/
namespace LineScope

/-- No suite right below a suite or a match, no `async` right below a suite, and a leaf other than a
newline at the end of every suite. -/
structure Symbol.Walls (symbol : Symbol) (parts : List Shape) : Prop where
  suites : symbol = .suite ∨ symbol = .matchStmt → ∀ s ∈ parts, s.symbol? ≠ some .suite
  asyncs : symbol = .suite → ∀ s ∈ parts, s.kind? ≠ some .async
  ends : symbol = .suite → ∃ kind, parts.getLast?.bind Shape.kind? = some kind ∧ kind ≠ .newline

inductive Shape.Walled : Shape → Prop
  | leaf (token : Leaf) : Walled (.leaf token)
  | node {symbol : Symbol} {parts : List Shape} (walls : symbol.Walls parts)
      (walled : ∀ s ∈ parts, Walled s) : Walled (.node symbol parts)

namespace Symbol.Walls

variable {symbol : Symbol} {before run run' after : List Shape}

/-- Only suites are asked for anything but suites among the parts of matches. -/
theorem of_ne (hsuite : symbol ≠ .suite)
    (hmatch : symbol = .matchStmt → ∀ s ∈ run, s.symbol? ≠ some .suite) : symbol.Walls run :=
  ⟨fun h => hmatch (h.resolve_left hsuite), fun h => absurd h hsuite, fun h => absurd h hsuite⟩

theorem replace (h : symbol.Walls (before ++ run ++ after))
    (hsuites : ∀ s ∈ run', s.symbol? = some .suite → ∃ r ∈ run, r.symbol? = some .suite)
    (hasyncs : ∀ s ∈ run', s.kind? = some .async → ∃ r ∈ run, r.kind? = some .async)
    (hends : after = [] → ∀ kind, (before ++ run).getLast?.bind Shape.kind? = some kind →
      kind ≠ .newline → ∃ kind', (before ++ run').getLast?.bind Shape.kind? = some kind' ∧
        kind' ≠ .newline) : symbol.Walls (before ++ run' ++ after) := by
  have hmem {s : Shape} (hs : s ∈ before ++ run' ++ after) :
      s ∈ before ++ run ++ after ∨ s ∈ run' := by
    simp only [List.mem_append] at hs ⊢
    tauto
  have hin {r : Shape} (hr : r ∈ run) : r ∈ before ++ run ++ after := by simp [hr]
  refine ⟨fun hsymbol s hs heq => ?_, fun hsymbol s hs heq => ?_, fun hsymbol => ?_⟩
  · rcases hmem hs with hs | hs
    · exact h.suites hsymbol s hs heq
    · obtain ⟨r, hr, hsuite⟩ := hsuites s hs heq
      exact h.suites hsymbol r (hin hr) hsuite
  · rcases hmem hs with hs | hs
    · exact h.asyncs hsymbol s hs heq
    · obtain ⟨r, hr, hasync⟩ := hasyncs s hs heq
      exact h.asyncs hsymbol r (hin hr) hasync
  · obtain ⟨kind, hlast, hkind⟩ := h.ends hsymbol
    cases after with
    | nil =>
      rw [List.append_nil] at hlast ⊢
      exact hends rfl kind hlast hkind
    | cons s after =>
      rw [List.getLast?_append_of_ne_nil _ (List.cons_ne_nil s after)] at hlast ⊢
      exact ⟨kind, hlast, hkind⟩

end Symbol.Walls

namespace Branch

variable {id : NodeId} {symbol : Symbol} {parts : List Branch}

theorem walled_node (h : (Branch.node id symbol parts).shape.Walled) :
    symbol.Walls (parts.map shape) ∧ ∀ b ∈ parts, b.shape.Walled := by
  rw [shape, shapesOfAll_eq_map] at h
  cases h with
  | node walls walled => exact ⟨walls, fun b hb => walled _ (List.mem_map_of_mem hb)⟩

theorem node_walled (hwalls : symbol.Walls (parts.map shape)) (hparts : ∀ b ∈ parts, b.shape.Walled) :
    (Branch.node id symbol parts).shape.Walled := by
  rw [shape, shapesOfAll_eq_map]
  exact .node hwalls (List.forall_mem_map.mpr hparts)

theorem walled_bare {b : Branch} (h : b.shape.Walled) : b.bare.shape.Walled := by
  induction b with
  | leaf id token => exact .leaf _
  | node id symbol parts ih =>
    obtain ⟨hwalls, hparts⟩ := walled_node h
    cases parts with
    | nil => exact h
    | cons b rest =>
      rw [List.forall_mem_cons] at hparts
      refine node_walled ?_ (List.forall_mem_cons.mpr ⟨ih b List.mem_cons_self hparts.1, hparts.2⟩)
      have hface : b.bare.shape.symbol? = b.shape.symbol? ∧ b.bare.shape.kind? = b.shape.kind? := by
        cases b with
        | leaf id token => exact ⟨rfl, rfl⟩
        | node id symbol parts => cases parts <;> exact ⟨rfl, rfl⟩
      rw [List.map_cons] at hwalls ⊢
      refine @Symbol.Walls.replace symbol [] [b.shape] [b.bare.shape] (rest.map shape) hwalls ?_ ?_ ?_
      · simp [hface.1]
      · simp [hface.2]
      · intro _ kind hlast hkind
        exact ⟨kind, by simpa [hface.2] using hlast, hkind⟩

end Branch

namespace Context

variable {c : Context} {run run' : List Branch}

theorem walled_of_fill (h : ∀ b ∈ c.fill run, b.shape.Walled) :
    (∀ b ∈ run, b.shape.Walled) ∧
      ∀ f ∈ c.head?, f.symbol.Walls ((f.before ++ run ++ f.after).map Branch.shape) := by
  induction c generalizing run with
  | nil => exact ⟨h, by simp⟩
  | cons f above ih =>
    obtain ⟨hwalls, hwalled⟩ := Branch.walled_node ((ih h).1 _ (List.mem_singleton_self _))
    refine ⟨fun b hb => hwalled b (by simp [hb]), fun g hg => ?_⟩
    obtain rfl := Option.some.inj hg
    exact hwalls

theorem walled_refill (h : ∀ b ∈ c.fill run, b.shape.Walled) (hrun : ∀ b ∈ run', b.shape.Walled)
    (hwalls : ∀ f ∈ c.head?, f.symbol.Walls ((f.before ++ run' ++ f.after).map Branch.shape)) :
    ∀ b ∈ c.fill run', b.shape.Walled := by
  induction c generalizing run run' with
  | nil => exact hrun
  | cons f above ih =>
    obtain ⟨hnode, habove⟩ := walled_of_fill (c := above) h
    obtain ⟨-, hparts⟩ := Branch.walled_node (hnode _ (List.mem_singleton_self _))
    refine ih h ?_ fun g hg => ?_
    · refine List.forall_mem_singleton.mpr (Branch.node_walled (hwalls f rfl) fun b hb => ?_)
      simp only [List.mem_append] at hb
      rcases hb with (hb | hb) | hb
      · exact hparts b (by simp [hb])
      · exact hrun b hb
      · exact hparts b (by simp [hb])
    · -- the node around keeps its symbol, whatever its parts are
      have hg := habove g hg
      simp only [List.map_append, List.map_singleton] at hg ⊢
      exact hg.replace (by simp [Branch.shape, Shape.symbol?]) (by simp [Branch.shape, Shape.kind?])
        (by simp [Branch.shape, Shape.kind?])

end Context

namespace Collapse

theorem symbol?_closing {c : Context} {x : Branch} (h : ∀ b ∈ c.fill [x], b.shape.Walled)
    (hsymbol : x.shape.symbol? ≠ some .suite) (hkind : ∀ kind ∈ x.shape.kind?, kind = .newline) :
    (closing c x).2.shape.symbol? ≠ some .suite := by
  induction c generalizing x with
  | nil => exact hsymbol
  | cons f above ih =>
    rw [closing]
    split
    · next hafter =>
      rw [List.isEmpty_iff] at hafter
      rw [Context.fill, hafter, List.append_nil] at h
      refine ih h (fun hsuite => ?_) (by simp [Branch.shape, Shape.kind?])
      obtain ⟨hwalls, -⟩ := Branch.walled_node ((Context.walled_of_fill h).1 _ List.mem_cons_self)
      obtain ⟨kind, hlast, hne⟩ := hwalls.ends (Option.some.inj hsuite)
      rw [List.map_append, List.map_singleton, List.getLast?_concat, Option.bind_some] at hlast
      exact hne (hkind kind hlast)
    · exact hsymbol

end Collapse

section Programs

open Grammar

variable {s : Shape} {symbol : Symbol} {parts header body : List Shape} {newline indent dedent : Leaf}

/-- What may stand in a suite: its nodes have their walls, and it is neither a suite nor an `async`. -/
structure Shape.Inner (s : Shape) : Prop where
  walled : s.Walled
  symbol_ne : s.symbol? ≠ some .suite
  kind_ne : s.kind? ≠ some .async

theorem Shape.inner_leaf {token : Leaf} (h : token.kind ≠ .async) : (Shape.leaf token).Inner :=
  ⟨.leaf token, nofun, fun hkind => h (Option.some.inj hkind)⟩

theorem Shape.walled_node (hsuite : symbol ≠ .suite) (hmatch : symbol ≠ .matchStmt)
    (h : ∀ s ∈ parts, s.Walled) : (Shape.node symbol parts).Walled :=
  .node (.of_ne hsuite fun heq => absurd heq hmatch) h

theorem Shape.inner_node (hsuite : symbol ≠ .suite) (hmatch : symbol ≠ .matchStmt)
    (h : ∀ s ∈ parts, s.Walled) : (Shape.node symbol parts).Inner :=
  ⟨walled_node hsuite hmatch h, fun heq => hsuite (Option.some.inj heq), nofun⟩

theorem Shape.Plain.inner (h : s.Plain) : s.Inner := by
  induction h with
  | leaf ordinary =>
    refine inner_leaf fun hkind => ?_
    rw [hkind] at ordinary
    cases ordinary
  | node nonempty plain ih => exact inner_node nofun nofun fun s hs => (ih s hs).walled

namespace Collapse

theorem walled_closed (h : IsHeader header) (newline : Leaf) :
    ∀ s ∈ header ++ [Shape.leaf newline], s.Walled := by
  rw [List.forall_mem_append, List.forall_mem_singleton]
  exact ⟨fun s hs => (h.2 s hs).inner.walled, .leaf newline⟩

theorem inner_line {line : Line} (h : line.Wf) : line.shape.Inner := by
  cases line with
  | simple parts newline => exact Shape.inner_node nofun nofun (walled_closed h.1 newline)
  | verbatim leaf => exact Shape.inner_leaf (by simp [show leaf.kind = .verbatim from h])

theorem inner_decorate {decorators : List Decorator} (h : ∀ d ∈ decorators, d.Wf) (hs : s.Inner) :
    (decorate decorators s).Inner := by
  have hall : ∀ d ∈ decorators, d.shape.Walled := fun d hd =>
    Shape.walled_node nofun nofun (walled_closed (h d hd).1 d.newline)
  cases decorators with
  | nil => exact hs
  | cons d rest =>
    refine Shape.inner_node nofun nofun ?_
    rw [List.forall_mem_append, List.forall_mem_singleton]
    refine ⟨?_, hs.walled⟩
    cases rest with
    | nil => exact List.forall_mem_singleton.mpr (hall d (List.mem_singleton_self d))
    | cons e rest =>
      refine List.forall_mem_singleton.mpr (Shape.walled_node nofun nofun ?_)
      exact List.forall_mem_map.mpr hall

theorem inner_leadShape {lead : Option Lead} (h : ∀ l ∈ lead, l.Wf) (hs : s.Inner) :
    (leadShape lead s).Inner := by
  cases lead with
  | none => exact hs
  | some lead =>
    have hwrapper : lead.wrapper ≠ .suite ∧ lead.wrapper ≠ .matchStmt := by
      have hmem := (h lead rfl).1
      simp only [List.mem_cons, List.not_mem_nil, or_false] at hmem
      rcases hmem with heq | heq <;> rw [heq] <;> decide
    exact Shape.inner_node hwrapper.1 hwrapper.2
      (List.forall_mem_cons.mpr ⟨.leaf _, List.forall_mem_singleton.mpr hs.walled⟩)

theorem walled_suiteShape (hnewline : newline.kind = .newline) (hindent : indent.kind = .indent)
    (hdedent : dedent.kind = .dedent) (hbody : ∀ s ∈ body, s.Inner) :
    (suiteShape newline indent body dedent).Walled := by
  have hparts : ∀ s ∈ .leaf newline :: .leaf indent :: body ++ [.leaf dedent], s.Inner := by
    rw [List.forall_mem_append, List.forall_mem_cons, List.forall_mem_cons,
      List.forall_mem_singleton]
    exact ⟨⟨Shape.inner_leaf (by simp [hnewline]), Shape.inner_leaf (by simp [hindent]), hbody⟩,
      Shape.inner_leaf (by simp [hdedent])⟩
  refine .node ⟨fun _ s hs => (hparts s hs).symbol_ne, fun _ s hs => (hparts s hs).kind_ne,
    fun _ => ⟨.dedent, ?_, by decide⟩⟩ fun s hs => (hparts s hs).walled
  rw [List.getLast?_concat, Option.bind_some, Shape.kind?, hdedent]

theorem walled_lines {lines : List Line} (hheader : IsHeader header)
    (hlines : ∀ line ∈ lines, line.Wf) : ∀ s ∈ header ++ lines.map Line.shape, s.Walled :=
  List.forall_mem_append.mpr ⟨fun s hs => (hheader.2 s hs).inner.walled,
    List.forall_mem_map.mpr fun line hline => (inner_line (hlines line hline)).walled⟩

mutual

theorem inner_statement (s : Statement) (h : s.Wf) : s.shape.Inner := by
  cases s with
  | line line => exact inner_line h
  | definition decorators leaf =>
    exact inner_decorate h.2.1 (Shape.inner_leaf (by simp [h.2.2]))
  | compound decorators lead symbol clauses =>
    obtain ⟨hdecorators, hlead, hsymbol, hclauses⟩ := h
    have hforms : symbol ≠ .suite ∧ symbol ≠ .matchStmt := by
      simp only [blockForms, List.mem_cons, List.not_mem_nil, or_false] at hsymbol
      rcases hsymbol with rfl | rfl | rfl | rfl | rfl | rfl | rfl | rfl <;> exact ⟨nofun, nofun⟩
    exact inner_decorate hdecorators (inner_leadShape hlead
      (Shape.inner_node hforms.1 hforms.2 (walled_clauses clauses hclauses)))
  | choice header newline indent options dedent =>
    obtain ⟨hheader, hnewline, hindent, hoptions, hdedent⟩ := h
    have hparts : ∀ s ∈ header ++ .leaf newline :: .leaf indent :: options.shapes ++ [.leaf dedent],
        s.Inner := by
      rw [List.forall_mem_append, List.forall_mem_append, List.forall_mem_cons, List.forall_mem_cons,
        List.forall_mem_singleton]
      exact ⟨⟨fun s hs => (hheader.2 s hs).inner, Shape.inner_leaf (by simp [hnewline]),
        Shape.inner_leaf (by simp [hindent]), inner_block options hoptions⟩,
        Shape.inner_leaf (by simp [hdedent])⟩
    exact ⟨.node (.of_ne nofun fun _ s hs => (hparts s hs).symbol_ne) fun s hs => (hparts s hs).walled,
      nofun, nofun⟩

theorem inner_block (block : Block) (h : block.Wf) : ∀ s ∈ block.shapes, s.Inner := by
  cases block with
  | nil => exact List.forall_mem_nil _
  | cons statement rest =>
    exact List.forall_mem_cons.mpr ⟨inner_statement statement h.1, inner_block rest h.2⟩

theorem walled_clauses (clauses : Clauses) (h : clauses.Wf) : ∀ s ∈ clauses.shapes, s.Walled := by
  cases clauses with
  | inline header body => exact walled_lines h.1 h.2.2
  | suite header newline indent body dedent =>
    obtain ⟨hheader, hnewline, hindent, hbody, hdedent⟩ := h
    exact List.forall_mem_append.mpr ⟨fun s hs => (hheader.2 s hs).inner.walled,
      List.forall_mem_singleton.mpr
        (walled_suiteShape hnewline hindent hdedent (inner_block body hbody))⟩
  | inlineThen header body rest =>
    exact List.forall_mem_append.mpr ⟨walled_lines h.1.1 h.1.2.2, walled_clauses rest h.2⟩
  | suiteThen header newline indent body dedent rest =>
    obtain ⟨⟨hheader, hnewline, hindent, hbody, hdedent⟩, hrest⟩ := h
    exact List.forall_mem_append.mpr ⟨fun s hs => (hheader.2 s hs).inner.walled,
      List.forall_mem_cons.mpr ⟨walled_suiteShape hnewline hindent hdedent (inner_block body hbody),
        walled_clauses rest hrest⟩⟩

end

theorem walled_fileShape {code : Block} (h : code.Wf) (endMarker : Leaf) :
    (fileShape code endMarker).Walled := by
  refine Shape.walled_node nofun nofun ?_
  rw [List.forall_mem_append, List.forall_mem_singleton]
  exact ⟨fun s hs => (inner_block code h s hs).walled, .leaf endMarker⟩

end Collapse

end Programs

end LineScope
