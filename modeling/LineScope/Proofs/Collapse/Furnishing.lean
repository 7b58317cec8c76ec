import LineScope.Proofs.Collapse.Bodies
import LineScope.Proofs.Collapse.Program

/-!
# Programs are furnished

In a program whose bodies hold statements, every node is arranged and furnished for collapsing,
whichever newlines are pending. The statement pass leaves a program of this kind.
-/
namespace LineScope

namespace Grammar

mutual

/-- Every suite and every match holds a statement. -/
def Statement.Bodied : Statement → Prop
  | .line _ => True
  | .compound _ _ _ clauses => clauses.Bodied
  | .definition _ _ => True
  | .choice _ _ _ cases _ => cases ≠ .nil ∧ cases.Bodied

def Block.Bodied : Block → Prop
  | .nil => True
  | .cons statement rest => statement.Bodied ∧ rest.Bodied

def Clauses.Bodied : Clauses → Prop
  | .inline _ _ => True
  | .suite _ _ _ body _ => body ≠ .nil ∧ body.Bodied
  | .inlineThen _ _ rest => rest.Bodied
  | .suiteThen _ _ _ body _ rest => (body ≠ .nil ∧ body.Bodied) ∧ rest.Bodied

end

end Grammar

def Role.Follows (a b : Role) : Prop := b = .suite → a = .inline

namespace Shape

inductive Lively : Shape → Prop
  | verbatim {token : Leaf} (kind : token.kind = .verbatim) : Lively (.leaf token)
  | line {parts : List Shape} : Lively (.node .simpleStmt parts)
  | part {symbol : Symbol} {parts : List Shape} {s : Shape} (mem : s ∈ parts) (lively : Lively s) :
      Lively (.node symbol parts)

inductive Kempt : Shape → Prop
  | leaf (token : Leaf) : Kempt (.leaf token)
  | node {symbol : Symbol} {parts : List Shape} (nonempty : parts ≠ [])
      (laid : symbol.Laid (parts.map role))
      (headed : (.mark :: parts.map role).IsChain Role.Follows)
      (closed : symbol = .suite → (parts.map role).getLast? = some .mark)
      (lively : symbol = .suite → ∃ s ∈ parts, s.Lively) (kempt : ∀ s ∈ parts, Kempt s) :
      Kempt (.node symbol parts)

end Shape

namespace Branch

theorem lively_of_shape {b : Branch} (h : b.shape.Lively) : b.Lively := by
  induction b with
  | leaf id token =>
    cases h with
    | verbatim kind => exact .verbatim kind
  | node id symbol parts ih =>
    rw [shape, shapesOfAll_eq_map] at h
    cases h with
    | line => exact .line
    | part mem lively =>
      obtain ⟨b, hb, rfl⟩ := List.mem_map.mp mem
      exact .part hb (ih b hb lively)

theorem led_of_follows {p : NodeId → Prop} {prev : Role} {bs : List Branch}
    (h : (prev :: bs.map fun b => b.shape.role).IsChain Role.Follows) : Led p prev bs := by
  induction bs generalizing prev with
  | nil => trivial
  | cons b rest ih =>
    rw [List.map_cons, List.isChain_cons_cons] at h
    refine ⟨fun hprev n hn => ?_, ih h.2⟩
    have hinline := h.1 (role_of_opener? hn)
    rw [hprev] at hinline
    cases hinline

theorem sound_of_kempt {p : NodeId → Prop} {b : Branch} (h : b.shape.Kempt) : b.Sound p := by
  induction b with
  | leaf id token => exact .leaf ..
  | node id symbol parts ih =>
    rw [shape, shapesOfAll_eq_map] at h
    cases h with
    | node nonempty laid headed closed lively kempt =>
      rw [List.map_map] at laid headed
      refine .node ⟨by simpa using nonempty, laid, led_of_follows ?_⟩ fun b hb =>
        ih b hb (kempt _ (List.mem_map_of_mem hb))
      cases parts with
      | nil => exact .singleton _
      | cons b rest =>
        rw [List.map_cons, List.isChain_cons_cons] at headed
        refine List.isChain_cons_cons.mpr ⟨fun hsuite => ?_, headed.2⟩
        cases headed.1 hsuite

theorem kempt_of_shape {p : NodeId → Prop} {b : Branch} (h : b.shape.Kempt) : b.Kempt p := by
  induction b with
  | leaf id token => exact .leaf ..
  | node id symbol parts ih =>
    rw [shape, shapesOfAll_eq_map] at h
    cases h with
    | node nonempty laid headed closed lively kempt =>
      rw [List.map_map] at headed closed
      refine .node ⟨?_, fun hsuite => ?_, fun hsuite => ?_⟩ fun b hb =>
        ih b hb (kempt _ (List.mem_map_of_mem hb))
      · refine ((List.isChain_map _).mp headed.tail).imp fun b s hbs n hn _ => ?_
        exact hbs (role_of_opener? hn)
      · have hlast := closed hsuite
        rw [List.getLast?_map, Option.map_eq_some_iff] at hlast
        exact hlast
      · obtain ⟨s, hs, hlively⟩ := lively hsuite
        obtain ⟨b, hb, rfl⟩ := List.mem_map.mp hs
        exact ⟨b, hb, lively_of_shape hlively⟩

end Branch

namespace Role

variable {xs rest : List Role}

theorem follows_append (hxs : ∀ r ∈ xs, r ≠ .suite) (hrest : ∀ a : Role, (a :: rest).IsChain Follows)
    (a : Role) : (a :: (xs ++ rest)).IsChain Follows := by
  induction xs generalizing a with
  | nil => exact hrest a
  | cons x xs ih =>
    rw [List.forall_mem_cons] at hxs
    exact List.isChain_cons_cons.mpr ⟨fun hsuite => absurd hsuite hxs.1, ih hxs.2 x⟩

theorem follows_of_ne (hxs : ∀ r ∈ xs, r ≠ .suite) (a : Role) : (a :: xs).IsChain Follows := by
  rw [← List.append_nil xs]
  exact follows_append hxs (fun a => .singleton a) a

end Role

theorem Shape.Plain.kempt {s : Shape} (h : s.Plain) : s.Kempt := by
  induction h with
  | leaf ordinary => exact .leaf _
  | @node name parts nonempty plain ih =>
    have hroles : ∀ r ∈ parts.map Shape.role, r = .inline := by
      intro r hr
      obtain ⟨s, hs, rfl⟩ := List.mem_map.mp hr
      exact (plain s hs).role
    refine .node nonempty hroles ?_ nofun nofun ih
    exact Role.follows_of_ne (fun r hr => by rw [hroles r hr]; decide) .mark

namespace Grammar

open Role

theorem IsHeader.roles {header : List Shape} (h : IsHeader header) :
    ∀ r ∈ header.map Shape.role, r = .inline := by
  intro r hr
  obtain ⟨s, hs, rfl⟩ := List.mem_map.mp hr
  exact (h.2 s hs).role

/-- What may come behind a token may come behind a header. -/
theorem follows_header {header : List Shape} (h : IsHeader header) {rest : List Role}
    (hrest : (.inline :: rest).IsChain Follows) (a : Role) :
    (a :: (header.map Shape.role ++ rest)).IsChain Follows := by
  obtain ⟨init, last, rfl⟩ := (List.eq_nil_or_concat header).resolve_left h.1
  have hroles := h.roles
  rw [List.concat_eq_append, List.map_append, List.map_singleton, List.forall_mem_append] at hroles
  rw [List.concat_eq_append, List.map_append, List.map_singleton, List.append_assoc]
  refine follows_append (fun r hr => ?_) (fun a => ?_) a
  · rw [hroles.1 r hr]
    decide
  · rw [hroles.2 _ (List.mem_singleton_self _)]
    exact List.isChain_cons_cons.mpr ⟨fun hsuite => (by cases hsuite), hrest⟩

structure Sits (s : Shape) : Prop where
  kempt : s.Kempt
  lively : s.Lively
  role : s.role = .form ∨ s.role = .mark

theorem kempt_line {symbol : Symbol} (hsymbol : symbol = .simpleStmt ∨ symbol = .decorator)
    {parts : List Shape} (h : IsHeader parts) {newline : Leaf} (hnewline : newline.kind = .newline) :
    (Shape.node symbol (parts ++ [.leaf newline])).Kempt := by
  have hinline := h.roles
  have hroles : (parts ++ [Shape.leaf newline]).map Shape.role =
      parts.map Shape.role ++ [.newline] := by
    rw [List.map_append, List.map_singleton, Shape.role, hnewline]
    rfl
  have hne : symbol ≠ .suite := by
    rcases hsymbol with rfl | rfl <;> decide
  refine .node (by simp) ?_ ?_ (absurd · hne) (absurd · hne) fun s hs => ?_
  · rw [hroles]
    rcases hsymbol with rfl | rfl <;> exact ⟨_, by simpa using h.1, hinline, rfl⟩
  · rw [hroles]
    refine follows_of_ne (fun r hr => ?_) .mark
    rcases List.mem_append.mp hr with hr | hr
    · rw [hinline r hr]
      decide
    · rw [List.mem_singleton.mp hr]
      decide
  · rcases List.mem_append.mp hs with hs | hs
    · exact (h.2 s hs).kempt
    · rw [List.mem_singleton.mp hs]
      exact .leaf _

theorem sits_line {line : Line} (h : line.Wf) : Sits line.shape := by
  cases line with
  | simple parts newline => exact ⟨kempt_line (.inl rfl) h.1 h.2, .line, .inl rfl⟩
  | verbatim leaf =>
    have hkind : leaf.kind = .verbatim := h
    refine ⟨.leaf _, .verbatim hkind, .inr ?_⟩
    rw [Line.shape, Shape.role, hkind]
    rfl

theorem kempt_open {symbol : Symbol} (hline : symbol.isLine = false) (hsuite : symbol ≠ .suite)
    (hmatch : symbol ≠ .matchStmt) {parts : List Shape} (hne : parts ≠ [])
    (hparts : ∀ s ∈ parts, s.Kempt ∧ s.role ≠ .newline)
    (hfollows : (.mark :: parts.map Shape.role).IsChain Role.Follows) :
    (Shape.node symbol parts).Kempt := by
  refine .node hne (Symbol.laid_of_ne_newline hline hsuite hmatch fun r hr => ?_) hfollows
    (absurd · hsuite) (absurd · hsuite) fun s hs => (hparts s hs).1
  obtain ⟨s, hs, rfl⟩ := List.mem_map.mp hr
  exact (hparts s hs).2

theorem sits_wrapper {symbol : Symbol} (hrole : symbol.role = .form) (hline : symbol.isLine = false)
    (hmatch : symbol ≠ .matchStmt) {front : List Shape} {last : Shape}
    (hfront : ∀ s ∈ front, s.Kempt ∧ (s.role = .form ∨ s.role = .mark)) (hlast : Sits last) :
    Sits (.node symbol (front ++ [last])) := by
  have hparts : ∀ s ∈ front ++ [last], s.Kempt ∧ (s.role = .form ∨ s.role = .mark) := by
    rw [List.forall_mem_append]
    exact ⟨hfront, by simpa using ⟨hlast.kempt, hlast.role⟩⟩
  have hne {r : Role} (hform : r ≠ .form) (hmark : r ≠ .mark) {s : Shape} (hs : s ∈ front ++ [last]) :
      s.role ≠ r := by
    rintro rfl
    exact (hparts s hs).2.elim hform hmark
  refine ⟨kempt_open hline ?_ hmatch (by simp) (fun s hs =>
    ⟨(hparts s hs).1, hne (by decide) (by decide) hs⟩) (follows_of_ne (fun r hr => ?_) .mark),
    .part (by simp) hlast.lively, .inl hrole⟩
  · rintro rfl
    cases hrole
  · obtain ⟨s, hs, rfl⟩ := List.mem_map.mp hr
    exact hne (by decide) (by decide) hs

theorem kempt_decorators {ds : List Decorator} (h : ∀ d ∈ ds, d.Wf) :
    ∀ s ∈ decoratorsShape ds, s.Kempt ∧ (s.role = .form ∨ s.role = .mark) := by
  have hshape : ∀ d ∈ ds, d.shape.Kempt := fun d hd => kempt_line (.inr rfl) (h d hd).1 (h d hd).2
  match ds, hshape with
  | [], _ => simp [decoratorsShape]
  | [d], hshape => simpa [decoratorsShape] using ⟨hshape d (by simp), Or.inl rfl⟩
  | d :: d' :: rest, hshape =>
    have hroles : ∀ s ∈ (d :: d' :: rest).map Decorator.shape, s.Kempt ∧ s.role = .form := by
      intro s hs
      obtain ⟨e, he, rfl⟩ := List.mem_map.mp hs
      exact ⟨hshape e he, rfl⟩
    refine List.forall_mem_singleton.mpr ⟨kempt_open rfl (by decide) (by decide) (by simp)
      (fun s hs => ⟨(hroles s hs).1, ?_⟩) (follows_of_ne (fun r hr => ?_) .mark), .inl rfl⟩
    · rw [(hroles s hs).2]
      decide
    · obtain ⟨s, hs, rfl⟩ := List.mem_map.mp hr
      rw [(hroles s hs).2]
      decide

theorem sits_decorate {ds : List Decorator} (h : ∀ d ∈ ds, d.Wf) {s : Shape} (hs : Sits s) :
    Sits (decorate ds s) := by
  cases ds with
  | nil => exact hs
  | cons d ds => exact sits_wrapper rfl rfl (by decide) (kempt_decorators h) hs

theorem sits_leadShape {lead : Option Lead} (h : ∀ l ∈ lead, l.Wf) {s : Shape} (hs : Sits s) :
    Sits (leadShape lead s) := by
  cases lead with
  | none => exact hs
  | some lead =>
    obtain ⟨hwrapper, hkey⟩ := h lead rfl
    have hfront : ∀ s ∈ [Shape.leaf lead.key], s.Kempt ∧ (s.role = .form ∨ s.role = .mark) := by
      rw [List.forall_mem_singleton, Shape.role, hkey]
      exact ⟨.leaf _, .inr rfl⟩
    simp only [List.mem_cons, List.not_mem_nil, or_false] at hwrapper
    refine @sits_wrapper lead.wrapper ?_ ?_ ?_ [.leaf lead.key] s hfront hs <;>
      rcases hwrapper with hwrapper | hwrapper <;> rw [hwrapper] <;> first | rfl | decide

theorem kempt_suite {newline indent dedent : Leaf} (hnewline : newline.kind = .newline)
    (hindent : indent.kind = .indent) (hdedent : dedent.kind = .dedent) {body : List Shape}
    (hne : body ≠ []) (hbody : ∀ s ∈ body, Sits s) :
    (suiteShape newline indent body dedent).Kempt ∧
      (suiteShape newline indent body dedent).Lively := by
  obtain ⟨first, hfirst⟩ := List.exists_mem_of_ne_nil body hne
  have hin : first ∈ .leaf newline :: .leaf indent :: body ++ [.leaf dedent] := by simp [hfirst]
  have hroles : (Shape.leaf newline :: .leaf indent :: body ++ [Shape.leaf dedent]).map Shape.role =
      .newline :: .mark :: (body.map Shape.role ++ [.mark]) := by
    simp [Shape.role, hnewline, hindent, hdedent, TokenKind.role, TokenKind.isOrdinary]
  have hmarks : ∀ r ∈ body.map Shape.role ++ [.mark], r = .form ∨ r = .mark := by
    rw [List.forall_mem_append]
    refine ⟨fun r hr => ?_, by simp⟩
    obtain ⟨s, hs, rfl⟩ := List.mem_map.mp hr
    exact (hbody s hs).role
  have hne' {r r' : Role} (hform : .form ≠ r') (hmark : .mark ≠ r')
      (hr : r ∈ body.map Shape.role ++ [.mark]) : r ≠ r' := by
    rcases hmarks r hr with rfl | rfl
    · exact hform
    · exact hmark
  refine ⟨.node (by simp) ?_ ?_ (fun _ => ?_) (fun _ => ⟨first, hin, (hbody first hfirst).lively⟩)
    fun s hs => ?_, .part hin (hbody first hfirst).lively⟩
  · rw [hroles]
    exact ⟨_, fun r hr => ⟨hne' (by decide) (by decide) hr, hne' (by decide) (by decide) hr⟩, rfl⟩
  · rw [hroles]
    refine follows_of_ne (fun r hr => ?_) .mark
    rw [List.mem_cons, List.mem_cons] at hr
    rcases hr with rfl | rfl | hr
    · decide
    · decide
    · exact hne' (by decide) (by decide) hr
  · rw [hroles, ← List.cons_append, ← List.cons_append, List.getLast?_concat]
  · simp only [List.cons_append, List.mem_cons, List.mem_append, List.not_mem_nil, or_false] at hs
    rcases hs with rfl | rfl | hs | rfl
    · exact .leaf _
    · exact .leaf _
    · exact (hbody s hs).kempt
    · exact .leaf _

structure SitsAll (shapes : List Shape) : Prop where
  kempt : ∀ s ∈ shapes, s.Kempt ∧ s.role ≠ .newline
  follows : ∀ a, (a :: shapes.map Shape.role).IsChain Follows
  lively : ∃ s ∈ shapes, s.Lively

theorem SitsAll.header {header rest : List Shape} (h : IsHeader header)
    (hkempt : ∀ s ∈ rest, s.Kempt ∧ s.role ≠ .newline)
    (hfollows : (.inline :: rest.map Shape.role).IsChain Follows) (hlively : ∃ s ∈ rest, s.Lively) :
    SitsAll (header ++ rest) := by
  obtain ⟨s, hs, hlively⟩ := hlively
  refine ⟨?_, fun a => ?_, s, by simp [hs], hlively⟩
  · rw [List.forall_mem_append]
    refine ⟨fun s hs => ⟨(h.2 s hs).kempt, ?_⟩, hkempt⟩
    rw [(h.2 s hs).role]
    decide
  · rw [List.map_append]
    exact follows_header h hfollows a

theorem SitsAll.lines {header : List Shape} {body : List Line} {rest : List Shape}
    (h : IsHeader header ∧ body ≠ [] ∧ ∀ line ∈ body, line.Wf)
    (hkempt : ∀ s ∈ rest, s.Kempt ∧ s.role ≠ .newline)
    (hfollows : ∀ a, (a :: rest.map Shape.role).IsChain Follows) :
    SitsAll (header ++ (body.map Line.shape ++ rest)) := by
  obtain ⟨hheader, hne, hbody⟩ := h
  have hsits : ∀ s ∈ body.map Line.shape, Sits s := by
    intro s hs
    obtain ⟨line, hline, rfl⟩ := List.mem_map.mp hs
    exact sits_line (hbody line hline)
  obtain ⟨first, hfirst⟩ := List.exists_mem_of_ne_nil (body.map Line.shape) (by simpa using hne)
  have hrole {r : Role} (hform : r ≠ .form) (hmark : r ≠ .mark) {s : Shape}
      (hs : s ∈ body.map Line.shape) : s.role ≠ r := by
    rintro rfl
    exact (hsits s hs).role.elim hform hmark
  refine .header hheader ?_ ?_ ⟨first, by simp [hfirst], (hsits first hfirst).lively⟩
  · rw [List.forall_mem_append]
    exact ⟨fun s hs => ⟨(hsits s hs).kempt, hrole (by decide) (by decide) hs⟩, hkempt⟩
  · rw [List.map_append]
    refine follows_append (fun r hr => ?_) hfollows .inline
    obtain ⟨s, hs, rfl⟩ := List.mem_map.mp hr
    exact hrole (by decide) (by decide) hs

theorem SitsAll.suite {header body rest : List Shape} {newline indent dedent : Leaf}
    (h : IsHeader header) (hnewline : newline.kind = .newline) (hindent : indent.kind = .indent)
    (hdedent : dedent.kind = .dedent) (hne : body ≠ []) (hbody : ∀ s ∈ body, Sits s)
    (hkempt : ∀ s ∈ rest, s.Kempt ∧ s.role ≠ .newline)
    (hfollows : ∀ a, (a :: rest.map Shape.role).IsChain Follows) :
    SitsAll (header ++ suiteShape newline indent body dedent :: rest) := by
  obtain ⟨hsuite, hlively⟩ := kempt_suite hnewline hindent hdedent hne hbody
  refine .header h ?_ (List.isChain_cons_cons.mpr ⟨fun _ => rfl, hfollows _⟩) ⟨_, by simp, hlively⟩
  rw [List.forall_mem_cons]
  exact ⟨⟨hsuite, nofun⟩, hkempt⟩

theorem kempt_choice {header body : List Shape} {newline indent dedent : Leaf} (h : IsHeader header)
    (hnewline : newline.kind = .newline) (hindent : indent.kind = .indent)
    (hdedent : dedent.kind = .dedent) (hbody : ∀ s ∈ body, Sits s) :
    (Shape.node .matchStmt
      (header ++ .leaf newline :: .leaf indent :: body ++ [.leaf dedent])).Kempt := by
  have hroles : (header ++ Shape.leaf newline :: .leaf indent :: body ++ [Shape.leaf dedent]).map
      Shape.role = header.map Shape.role ++ .newline :: .mark :: (body.map Shape.role ++ [.mark]) := by
    simp [Shape.role, hnewline, hindent, hdedent, TokenKind.role, TokenKind.isOrdinary]
  have hsuite : ∀ r ∈ header.map Shape.role ++ .newline :: .mark :: (body.map Shape.role ++ [.mark]),
      r ≠ .suite := by
    simp only [List.mem_append, List.mem_cons, List.not_mem_nil, or_false]
    rintro r (hr | rfl | rfl | hr | rfl)
    · rw [h.roles r hr]
      decide
    · decide
    · decide
    · obtain ⟨s, hs, rfl⟩ := List.mem_map.mp hr
      rcases (hbody s hs).role with hrole | hrole <;> rw [hrole] <;> decide
    · decide
  refine .node (by simp) ?_ ?_ (by simp) (by simp) fun s hs => ?_
  · rw [hroles]
    refine ⟨?_, hsuite⟩
    obtain ⟨first, rest, rfl⟩ := List.exists_cons_of_ne_nil h.1
    have hfirst : first.role = .inline := h.roles _ (by simp)
    rw [List.map_cons, List.cons_append, List.head?_cons, hfirst]
    decide
  · rw [hroles]
    exact follows_of_ne hsuite .mark
  · simp only [List.mem_append, List.mem_cons, List.not_mem_nil, or_false] at hs
    rcases hs with (hs | rfl | rfl | hs) | rfl
    · exact (h.2 s hs).kempt
    · exact .leaf _
    · exact .leaf _
    · exact (hbody s hs).kempt
    · exact .leaf _

theorem shapes_ne_nil {block : Block} (h : block ≠ .nil) : block.shapes ≠ [] := by
  cases block with
  | nil => exact absurd rfl h
  | cons statement rest => exact List.cons_ne_nil _ _

mutual

theorem sits_statement (s : Statement) (hwf : s.Wf) (hbodied : s.Bodied) : Sits s.shape := by
  cases s with
  | line line => exact sits_line hwf
  | definition decorators leaf =>
    obtain ⟨-, hdecorators, hkind⟩ := hwf
    exact sits_decorate hdecorators (@sits_line (.verbatim leaf) hkind)
  | compound decorators lead symbol clauses =>
    obtain ⟨hdecorators, hlead, hsymbol, hclauses⟩ := hwf
    obtain ⟨hkempt, hfollows, s, hs, hlively⟩ := sitsAll_clauses clauses hclauses hbodied
    have hforms : symbol.isLine = false ∧ symbol ≠ .suite ∧ symbol ≠ .matchStmt ∧
        symbol.role = .form := by
      simp only [blockForms, List.mem_cons, List.not_mem_nil, or_false] at hsymbol
      rcases hsymbol with rfl | rfl | rfl | rfl | rfl | rfl | rfl | rfl <;> decide
    refine sits_decorate hdecorators (sits_leadShape hlead ⟨?_, .part hs hlively, .inl hforms.2.2.2⟩)
    exact kempt_open hforms.1 hforms.2.1 hforms.2.2.1 (List.ne_nil_of_mem hs) hkempt (hfollows .mark)
  | choice header newline indent options dedent =>
    obtain ⟨hheader, hnewline, hindent, hoptions, hdedent⟩ := hwf
    obtain ⟨hne, hbodied⟩ := hbodied
    have hbody := sits_block options hoptions hbodied
    obtain ⟨first, hfirst⟩ := List.exists_mem_of_ne_nil _ (shapes_ne_nil hne)
    exact ⟨kempt_choice hheader hnewline hindent hdedent hbody,
      .part (s := first) (by simp [hfirst]) (hbody first hfirst).lively, .inl rfl⟩

theorem sits_block (block : Block) (hwf : block.Wf) (hbodied : block.Bodied) :
    ∀ s ∈ block.shapes, Sits s := by
  cases block with
  | nil => simp [Block.shapes]
  | cons statement rest =>
    rw [Block.shapes, List.forall_mem_cons]
    exact ⟨sits_statement statement hwf.1 hbodied.1, sits_block rest hwf.2 hbodied.2⟩

theorem sitsAll_clauses (clauses : Clauses) (hwf : clauses.Wf) (hbodied : clauses.Bodied) :
    SitsAll clauses.shapes := by
  cases clauses with
  | inline header body =>
    have hlines := @SitsAll.lines header body [] hwf (by simp) fun a => .singleton a
    rwa [List.append_nil] at hlines
  | suite header newline indent body dedent =>
    obtain ⟨hheader, hnewline, hindent, hbody, hdedent⟩ := hwf
    exact .suite hheader hnewline hindent hdedent (shapes_ne_nil hbodied.1)
      (sits_block body hbody hbodied.2) (by simp) fun a => .singleton a
  | inlineThen header body rest =>
    obtain ⟨hkempt, hfollows, -⟩ := sitsAll_clauses rest hwf.2 hbodied
    rw [Clauses.shapes, List.append_assoc]
    exact .lines hwf.1 hkempt hfollows
  | suiteThen header newline indent body dedent rest =>
    obtain ⟨⟨hheader, hnewline, hindent, hbody, hdedent⟩, hrest⟩ := hwf
    obtain ⟨hkempt, hfollows, -⟩ := sitsAll_clauses rest hrest hbodied.2
    exact .suite hheader hnewline hindent hdedent (shapes_ne_nil hbodied.1.1)
      (sits_block body hbody hbodied.1.2) hkempt hfollows

end

theorem kempt_fileShape {code : Block} (hwf : code.Wf) (hbodied : code.Bodied) {endMarker : Leaf}
    (hkind : endMarker.kind = .endMarker) : (fileShape code endMarker).Kempt := by
  have hsits := sits_block code hwf hbodied
  have hend : (Shape.leaf endMarker).role = .mark := by
    rw [Shape.role, hkind]
    rfl
  have hrole {r : Role} (hform : r ≠ .form) (hmark : r ≠ .mark) {s : Shape}
      (hs : s ∈ code.shapes ++ [.leaf endMarker]) : s.role ≠ r := by
    rintro rfl
    rcases List.mem_append.mp hs with hs | hs
    · exact (hsits s hs).role.elim hform hmark
    · exact hmark (List.mem_singleton.mp hs ▸ hend)
  refine kempt_open rfl (by decide) (by decide) (by simp) (fun s hs => ⟨?_, ?_⟩)
    (follows_of_ne (fun r hr => ?_) .mark)
  · rcases List.mem_append.mp hs with hs | hs
    · exact (hsits s hs).kempt
    · exact List.mem_singleton.mp hs ▸ .leaf _
  · exact hrole (by decide) (by decide) hs
  · obtain ⟨s, hs, rfl⟩ := List.mem_map.mp hr
    exact hrole (by decide) (by decide) hs

end Grammar

namespace Collapse

open Grammar

variable {keep : LineSet}

theorem sealClauses_bodied (clauses : Clauses) (h : clauses.Bodied) :
    (sealClauses keep clauses).Bodied := by
  cases clauses with
  | inline header body => trivial
  | suite header newline indent body dedent => exact h
  | inlineThen header body rest => exact sealClauses_bodied rest h
  | suiteThen header newline indent body dedent rest => exact ⟨h.1, sealClauses_bodied rest h.2⟩

mutual

theorem sealStatement_bodied (s : Statement) (h : s.Bodied) : (sealStatement keep s).Bodied := by
  cases s with
  | line line => trivial
  | definition decorators leaf => trivial
  | choice header newline indent options dedent =>
    refine ⟨?_, sealBlock_bodied options h.2⟩
    cases options with
    | nil => exact absurd rfl h.1
    | cons statement rest => exact nofun
  | compound decorators lead symbol clauses =>
    rw [sealStatement]
    split
    · cases decorators <;> trivial
    · split
      · trivial
      · exact sealClauses_bodied clauses h

theorem sealBlock_bodied (block : Block) (h : block.Bodied) : (sealBlock keep block).Bodied := by
  cases block with
  | nil => trivial
  | cons statement rest => exact ⟨sealStatement_bodied statement h.1, sealBlock_bodied rest h.2⟩

end

theorem sealedFirst_bodied {code : Block} (h : code.Bodied) (keep : LineSet)
    (wholeStatements : Bool) : (sealedFirst keep wholeStatements code).Bodied := by
  unfold sealedFirst
  split
  · exact sealBlock_bodied code h
  · exact h

end Collapse

end LineScope
