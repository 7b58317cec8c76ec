import LineScope.Proofs.Collapse.Folding
import LineScope.Proofs.Collapse.Grammar

/-!
# How the parts of a node stand

Enough of the shape of a program to collapse it without error: where newlines stand, and that a
suite has something in front of it to be its header. A header that goes away together with its
`async` leaves its suite without one, so only suites whose newline is still `pending` are asked for
a header.
-/
namespace LineScope

inductive Role where
  | newline
  /-- An ordinary token, or a node without meaning to collapsing. -/
  | inline
  /-- Any other leaf. -/
  | mark
  | suite
  /-- Any other node. -/
  | form
  deriving DecidableEq, Repr

namespace Role

def isBlock : Role → Bool
  | .suite | .form => true
  | _ => false

end Role

def TokenKind.role (kind : TokenKind) : Role :=
  if kind = .newline then .newline else if kind.isOrdinary then .inline else .mark

namespace Symbol

def role : Symbol → Role
  | .other _ => .inline
  | .suite => .suite
  | _ => .form

def isLine : Symbol → Bool
  | .simpleStmt | .decorator | .other _ => true
  | _ => false

def Laid : Symbol → List Role → Prop
  | .simpleStmt, roles | .decorator, roles =>
    ∃ header, header ≠ [] ∧ (∀ r ∈ header, r = .inline) ∧ roles = header ++ [.newline]
  | .other _, roles => ∀ r ∈ roles, r = .inline
  | .suite, roles =>
    ∃ body, (∀ r ∈ body, r ≠ .newline ∧ r ≠ .suite) ∧ roles = .newline :: .mark :: body
  | .matchStmt, roles => roles.head? ≠ some .newline ∧ ∀ r ∈ roles, r ≠ .suite
  | _, roles => ∀ r ∈ roles, r ≠ .newline

theorem laid_of_ne_newline {symbol : Symbol} {roles : List Role} (hline : symbol.isLine = false)
    (hsuite : symbol ≠ .suite) (hmatch : symbol ≠ .matchStmt) (h : ∀ r ∈ roles, r ≠ .newline) :
    symbol.Laid roles := by
  cases symbol with
  | simpleStmt => cases hline
  | decorator => cases hline
  | other name => cases hline
  | suite => exact absurd rfl hsuite
  | matchStmt => exact absurd rfl hmatch
  | _ => exact h

theorem Laid.ne_newline {symbol : Symbol} {roles : List Role} (h : symbol.Laid roles)
    (hline : symbol.isLine = false) (hsuite : symbol ≠ .suite) (hmatch : symbol ≠ .matchStmt) :
    ∀ r ∈ roles, r ≠ .newline := by
  cases symbol with
  | simpleStmt => cases hline
  | decorator => cases hline
  | other name => cases hline
  | suite => exact absurd rfl hsuite
  | matchStmt => exact absurd rfl hmatch
  | _ => exact h

theorem Laid.newline {symbol : Symbol} {before after : List Role}
    (h : symbol.Laid (before ++ .newline :: after)) :
    (symbol = .simpleStmt ∨ symbol = .decorator) ∧ before ≠ [] ∧ after = [] ∨
      symbol = .suite ∧ before = [] ∨ symbol = .matchStmt ∧ before ≠ [] := by
  have hline : (∃ header : List Role, header ≠ [] ∧ (∀ r ∈ header, r = .inline) ∧
      before ++ .newline :: after = header ++ [.newline]) → before ≠ [] ∧ after = [] := by
    rintro ⟨header, hne, hinline, heq⟩
    have hafter : after = [] := by
      rcases List.eq_nil_or_concat after with hnil | ⟨after, last, rfl⟩
      · exact hnil
      · rw [List.concat_eq_append, ← List.cons_append, ← List.append_assoc] at heq
        have hmem : Role.newline ∈ header := by
          rw [← List.append_inj_left' heq rfl]
          simp
        cases hinline _ hmem
    subst hafter
    exact ⟨List.append_inj_left' heq rfl ▸ hne, rfl⟩
  cases symbol with
  | simpleStmt => exact .inl ⟨.inl rfl, hline h⟩
  | decorator => exact .inl ⟨.inr rfl, hline h⟩
  | other name => cases h .newline (by simp)
  | suite =>
    obtain ⟨body, hbody, heq⟩ := h
    refine .inr (.inl ⟨rfl, ?_⟩)
    cases before with
    | nil => rfl
    | cons r before =>
      rw [List.cons_append, List.cons.injEq] at heq
      cases before with
      | nil => cases (List.cons.inj heq.2).1
      | cons s before =>
        rw [List.cons_append, List.cons.injEq] at heq
        exact absurd rfl (hbody .newline (heq.2.2 ▸ by simp)).1
  | matchStmt =>
    refine .inr (.inr ⟨rfl, ?_⟩)
    rintro rfl
    exact h.1 rfl
  | _ => exact absurd rfl (h .newline (by simp))

theorem Laid.isLine {symbol : Symbol} {roles : List Role} (h : symbol.Laid roles) {r : Role}
    (hr : r ∈ roles) (hinline : r ≠ .inline) (hnewline : r ≠ .newline) : symbol.isLine = false := by
  have hline : (∃ header : List Role, header ≠ [] ∧ (∀ r ∈ header, r = .inline) ∧
      roles = header ++ [.newline]) → False := by
    rintro ⟨header, -, hall, rfl⟩
    rcases List.mem_append.mp hr with hr | hr
    · exact hinline (hall r hr)
    · exact hnewline (List.mem_singleton.mp hr)
  cases symbol with
  | simpleStmt => exact (hline h).elim
  | decorator => exact (hline h).elim
  | other name => exact absurd (h r hr) hinline
  | _ => rfl

theorem Laid.of_suite {symbol : Symbol} {roles : List Role} (h : symbol.Laid roles)
    (hsuite : Role.suite ∈ roles) :
    symbol.isLine = false ∧ symbol ≠ .suite ∧ symbol ≠ .matchStmt := by
  refine ⟨h.isLine hsuite (by decide) (by decide), ?_, ?_⟩
  · rintro rfl
    obtain ⟨body, hbody, rfl⟩ := h
    simp only [List.mem_cons, reduceCtorEq, false_or] at hsuite
    exact (hbody _ hsuite).2 rfl
  · rintro rfl
    exact h.2 _ hsuite rfl

/-- A form inside a suite stands behind its newline and its indent. -/
theorem Laid.two_le_of_form {before after : List Role}
    (h : Symbol.suite.Laid (before ++ .form :: after)) : 2 ≤ before.length := by
  obtain ⟨body, -, heq⟩ := h
  match before, heq with
  | [], heq => cases (List.cons.inj heq).1
  | [_], heq => cases (List.cons.inj (List.cons.inj heq).2).1
  | _ :: _ :: before, _ => simp

/-- A mark may take the place of a run, except within a logical line and at the head of a suite. -/
theorem Laid.replace {symbol : Symbol} {before run after : List Role}
    (h : symbol.Laid (before ++ run ++ after)) (hline : symbol.isLine = false)
    (hsuite : symbol = .suite → 2 ≤ before.length) :
    symbol.Laid (before ++ [.mark] ++ after) := by
  have hother : (∀ r ∈ before ++ run ++ after, r ≠ .newline) →
      ∀ r ∈ before ++ [.mark] ++ after, r ≠ .newline := by
    intro hall r hr
    simp only [List.mem_append, List.mem_singleton] at hr hall
    rcases hr with (hr | rfl) | hr
    · exact hall r (.inl (.inl hr))
    · decide
    · exact hall r (.inr hr)
  cases symbol with
  | simpleStmt => cases hline
  | decorator => cases hline
  | other name => cases hline
  | suite =>
    obtain ⟨body, hbody, heq⟩ := h
    have hlength := hsuite rfl
    rcases before with _ | ⟨_, _ | ⟨_, before⟩⟩
    · simp at hlength
    · simp at hlength
    · simp only [List.cons_append, List.cons.injEq] at heq ⊢
      obtain ⟨rfl, rfl, rfl⟩ := heq
      refine ⟨_, fun r hr => ?_, rfl⟩
      simp only [List.mem_append, List.mem_singleton] at hr hbody
      rcases hr with (hr | rfl) | hr
      · exact hbody r (.inl (.inl hr))
      · exact ⟨by decide, by decide⟩
      · exact hbody r (.inr hr)
  | matchStmt =>
    obtain ⟨hhead, hall⟩ := h
    refine ⟨?_, fun r hr => ?_⟩
    · cases before with
      | nil => simp
      | cons r before => exact hhead
    · simp only [List.mem_append, List.mem_singleton] at hr hall
      rcases hr with (hr | rfl) | hr
      · exact hall r (.inl (.inl hr))
      · decide
      · exact hall r (.inr hr)
  | _ => exact hother h

theorem Laid.of_subset {symbol : Symbol} {roles roles' : List Role} (h : symbol.Laid roles)
    (hsuite : Role.suite ∈ roles) (hsub : roles' ⊆ roles) : symbol.Laid roles' := by
  obtain ⟨hline, hnosuite, hnomatch⟩ := h.of_suite hsuite
  exact laid_of_ne_newline hline hnosuite hnomatch fun r hr =>
    h.ne_newline hline hnosuite hnomatch r (hsub hr)

theorem isBlock_role {symbol : Symbol} (h : symbol.isLine = false) : symbol.role.isBlock = true := by
  cases symbol with
  | other name => cases h
  | _ => rfl

end Symbol

def Shape.role : Shape → Role
  | .leaf token => token.kind.role
  | .node symbol _ => symbol.role

theorem Shape.Plain.role {s : Shape} (h : s.Plain) : s.role = .inline := by
  cases h with
  | @leaf token ordinary =>
    rw [Shape.role, TokenKind.role, if_neg, if_pos ordinary]
    intro hkind
    rw [hkind] at ordinary
    cases ordinary
  | node nonempty plain => rfl

namespace Branch

theorem role_mark {n : NodeId} {token : Leaf} (h : token.kind = .verbatim ∨ token.kind = .async) :
    (leaf n token).shape.role = .mark := by
  rcases h with h | h <;> rw [shape, Shape.role, h] <;> rfl

def opener? : Branch → Option NodeId
  | .node _ .suite (.leaf n _ :: _) => some n
  | _ => none

theorem role_of_opener? {b : Branch} {n : NodeId} (h : b.opener? = some n) :
    b.shape.role = .suite := by
  unfold opener? at h
  split at h
  · rfl
  · cases h

theorem opener?_cons (id : NodeId) (symbol : Symbol) (b : Branch) (rest rest' : List Branch) :
    (node id symbol (b :: rest)).opener? = (node id symbol (b :: rest')).opener? := by
  cases symbol with
  | suite => cases b <;> rfl
  | _ => rfl

theorem opener?_of_ne_suite {id : NodeId} {symbol : Symbol} (h : symbol ≠ .suite)
    (parts : List Branch) : (node id symbol parts).opener? = none := by
  cases symbol with
  | suite => exact absurd rfl h
  | _ => rfl

/-- No suite whose newline is pending comes right after another suite; `prev` is what stands in
front. -/
def Led (pending : NodeId → Prop) : Role → List Branch → Prop
  | _, [] => True
  | prev, b :: rest =>
    (prev = .suite → ∀ n, b.opener? = some n → ¬ pending n) ∧ Led pending b.shape.role rest

section Led

variable {p q : NodeId → Prop} {prev prev' : Role} {bs cs : List Branch}

def lastRole (prev : Role) (bs : List Branch) : Role :=
  (bs.getLast?.map fun b => b.shape.role).getD prev

theorem led_append : Led p prev (bs ++ cs) ↔ Led p prev bs ∧ Led p (lastRole prev bs) cs := by
  induction bs generalizing prev with
  | nil => simp [Led, lastRole]
  | cons b bs ih =>
    have hlast : lastRole prev (b :: bs) = lastRole b.shape.role bs := by
      cases bs with
      | nil => rfl
      | cons c bs => simp [lastRole, List.getLast?_cons]
    rw [List.cons_append, Led, ih, Led, hlast, and_assoc]

theorem Led.of_ne_suite (h : Led p prev bs) (hprev : prev' ≠ .suite) : Led p prev' bs := by
  cases bs with
  | nil => trivial
  | cons b bs => exact ⟨fun heq => absurd heq hprev, h.2⟩

theorem Led.mono (h : Led p prev bs) (hpq : ∀ n, q n → p n) : Led q prev bs := by
  induction bs generalizing prev with
  | nil => trivial
  | cons b bs ih => exact ⟨fun heq n hn hq => h.1 heq n hn (hpq n hq), ih h.2⟩

theorem Led.replace {before run after : List Branch} {n : NodeId} {token : Leaf}
    (h : Led p prev (before ++ run ++ after)) (hkind : token.kind = .verbatim) :
    Led p prev (before ++ [.leaf n token] ++ after) := by
  have hmark : (Branch.leaf n token).shape.role = .mark := role_mark (.inl hkind)
  rw [led_append, led_append] at h ⊢
  refine ⟨⟨h.1.1, ⟨fun _ m hm => (by cases hm), trivial⟩⟩, ?_⟩
  refine h.2.of_ne_suite ?_
  rw [lastRole, List.getLast?_append]
  simp [hmark]

/-- The part right before a suite whose newline is pending. -/
theorem Led.exists_header {before after : List Branch} {suite : Branch} {n : NodeId}
    (h : Led p .suite (before ++ suite :: after)) (hopener : suite.opener? = some n) (hn : p n) :
    ∃ pre b, before = pre ++ [b] ∧ b.shape.role ≠ .suite := by
  have hlast := (led_append.mp h).2.1
  rcases List.eq_nil_or_concat before with rfl | ⟨pre, b, rfl⟩
  · exact absurd hn (hlast rfl n hopener)
  · refine ⟨pre, b, List.concat_eq_append, fun hrole => hlast ?_ n hopener hn⟩
    rw [lastRole, List.concat_eq_append, List.getLast?_concat, Option.map_some, Option.getD_some,
      hrole]

theorem Led.congr {before after : List Branch} {x y : Branch}
    (h : Led p prev (before ++ [x] ++ after)) (hrole : y.shape.role = x.shape.role)
    (hopener : y.opener? = x.opener?) : Led p prev (before ++ [y] ++ after) := by
  rw [led_append, led_append] at h ⊢
  obtain ⟨⟨hbefore, hx⟩, hafter⟩ := h
  refine ⟨⟨hbefore, ⟨?_, trivial⟩⟩, ?_⟩
  · rw [hopener]
    exact hx.1
  · rw [lastRole, List.getLast?_concat, Option.map_some, Option.getD_some] at hafter ⊢
    rw [hrole]
    exact hafter

end Led

structure Arranged (pending : NodeId → Prop) (symbol : Symbol) (parts : List Branch) : Prop where
  nonempty : parts ≠ []
  laid : symbol.Laid (parts.map fun b => b.shape.role)
  led : Led pending .suite parts

inductive Sound (pending : NodeId → Prop) : Branch → Prop
  | leaf (id : NodeId) (token : Leaf) : Sound pending (.leaf id token)
  | node {id : NodeId} {symbol : Symbol} {parts : List Branch}
      (arranged : Arranged pending symbol parts) (sound : ∀ b ∈ parts, Sound pending b) :
      Sound pending (.node id symbol parts)

variable {p q : NodeId → Prop} {b : Branch} {id : NodeId} {symbol : Symbol} {parts : List Branch}

theorem Sound.arranged (h : Sound p (.node id symbol parts)) : Arranged p symbol parts := by
  cases h with
  | node arranged _ => exact arranged

theorem Sound.part (h : Sound p (.node id symbol parts)) (hb : b ∈ parts) : b.Sound p := by
  cases h with
  | node _ sound => exact sound b hb

theorem Sound.full (h : b.Sound p) : b.shape.Full := by
  induction b with
  | leaf id token => exact .leaf _
  | node id symbol parts ih => exact full_node h.arranged.nonempty fun b hb => ih b hb (h.part hb)

theorem Sound.mono (h : b.Sound p) (hpq : ∀ n, q n → p n) : b.Sound q := by
  induction b with
  | leaf id token => exact .leaf ..
  | node id symbol parts ih =>
    exact .node ⟨h.arranged.nonempty, h.arranged.laid, h.arranged.led.mono hpq⟩
      fun b hb => ih b hb (h.part hb)

theorem bare_role (b : Branch) : b.bare.shape.role = b.shape.role := by
  match b with
  | .leaf id token => rfl
  | .node id symbol [] => rfl
  | .node id symbol (_ :: _) => rfl

theorem bare_opener? (b : Branch) : b.bare.opener? = b.opener? := by
  match b with
  | .leaf id token => rfl
  | .node id symbol [] => rfl
  | .node id symbol (.leaf n token :: rest) => cases symbol <;> rfl
  | .node id symbol (.node n s [] :: rest) => cases symbol <;> rfl
  | .node id symbol (.node n s (_ :: _) :: rest) => cases symbol <;> rfl

theorem Sound.bare (h : b.Sound p) : b.bare.Sound p := by
  induction b with
  | leaf id token => exact .leaf ..
  | node id symbol parts ih =>
    match parts, h, ih with
    | [], h, _ => exact h
    | b :: rest, h, ih =>
      have harranged := h.arranged
      refine .node ⟨List.cons_ne_nil _ _, ?_, ?_⟩ ?_
      · rw [List.map_cons, bare_role]
        exact harranged.laid
      · have hled : Led p .suite ([] ++ [b] ++ rest) := harranged.led
        exact hled.congr b.bare_role b.bare_opener?
      · intro c hc
        rcases List.mem_cons.mp hc with rfl | hc
        · exact ih b List.mem_cons_self (h.part List.mem_cons_self)
        · exact h.part (List.mem_cons_of_mem _ hc)

theorem Sound.isLine (h : Sound p (.node id symbol parts)) (hb : b ∈ parts)
    (hblock : b.shape.role.isBlock = true) : symbol.isLine = false := by
  refine h.arranged.laid.isLine (List.mem_map_of_mem hb) ?_ ?_ <;> intro hrole <;>
    rw [hrole] at hblock <;> cases hblock

/-- The header of a suite may go once the newline of the suite is not pending any more. -/
theorem Sound.behead {pre header post : List Branch} {suite : Branch}
    (h : Sound p (.node id symbol (pre ++ header ++ suite :: post)))
    (hsuite : suite.shape.role = .suite) (hvisited : ∀ m, suite.opener? = some m → ¬ p m) :
    Sound p (.node id symbol (pre ++ suite :: post)) := by
  have hmem : Role.suite ∈ (pre ++ header ++ suite :: post).map fun b => b.shape.role := by
    simp [hsuite]
  have hsub : pre ++ suite :: post ⊆ pre ++ header ++ suite :: post := by
    intro b hb
    simp only [List.mem_append, List.mem_cons] at hb ⊢
    tauto
  refine .node ⟨by simp, ?_, ?_⟩ fun b hb => h.part (hsub hb)
  · exact h.arranged.laid.of_subset hmem (List.map_subset _ hsub)
  · have hled := h.arranged.led
    rw [led_append, led_append] at hled
    rw [led_append]
    exact ⟨hled.1.1, ⟨fun _ m hm => hvisited m hm, hled.2.2⟩⟩

theorem length_le_leavesOfAll {bs : List Branch} (h : ∀ b ∈ bs, b.shape.Full) :
    bs.length ≤ (leavesOfAll bs).length := by
  induction bs with
  | nil => exact Nat.zero_le _
  | cons b rest ih =>
    have hb := List.length_pos_of_ne_nil (leaves_ne_nil_of_full (h b List.mem_cons_self))
    have hrest := ih fun c hc => h c (List.mem_cons_of_mem _ hc)
    rw [leavesOfAll, List.length_append, List.length_cons]
    omega

end Branch

namespace Context

variable {p : NodeId → Prop} {c above : Context} {f : Frame} {run : List Branch}

theorem sound_of_fill (h : ∀ b ∈ c.fill run, b.Sound p) : ∀ b ∈ run, b.Sound p := by
  induction c generalizing run with
  | nil => exact h
  | cons f above ih =>
    intro b hb
    exact (ih h _ (List.mem_singleton_self _)).part (by simp [hb])

theorem sound_frame (h : ∀ b ∈ fill (f :: above) run, b.Sound p) :
    (Branch.node f.id f.symbol (f.before ++ run ++ f.after)).Sound p :=
  sound_of_fill (c := above) h _ (List.mem_singleton_self _)

theorem sound_refill {id : NodeId} {symbol : Symbol} {parts parts' : List Branch}
    (h : ∀ b ∈ c.fill [.node id symbol parts], b.Sound p)
    (hsound : (Branch.node id symbol parts').Sound p)
    (hopener : (Branch.node id symbol parts').opener? = (Branch.node id symbol parts).opener?) :
    ∀ b ∈ c.fill [.node id symbol parts'], b.Sound p := by
  induction c generalizing id symbol parts parts' with
  | nil =>
    intro b hb
    rw [List.mem_singleton.mp hb]
    exact hsound
  | cons f above ih =>
    have hframe := sound_frame h
    refine ih h (.node ⟨by simp, ?_, ?_⟩ fun b hb => ?_) ?_
    · have hlaid := hframe.arranged.laid
      simp only [List.map_append, List.map_cons, List.map_nil] at hlaid ⊢
      exact hlaid
    · exact hframe.arranged.led.congr rfl hopener
    · simp only [List.mem_append, List.mem_singleton] at hb
      rcases hb with (hb | rfl) | hb
      · exact hframe.part (by simp [hb])
      · exact hsound
      · exact hframe.part (by simp [hb])
    · cases f.before with
      | nil => cases f.symbol <;> rfl
      | cons b before => exact Branch.opener?_cons ..

theorem sound_fold {n : NodeId} {token : Leaf} (h : ∀ b ∈ fill (f :: above) run, b.Sound p)
    (hline : f.symbol.isLine = false) (hsuite : f.symbol = .suite → 2 ≤ f.before.length)
    (hkind : token.kind = .verbatim) : ∀ b ∈ fill (f :: above) [.leaf n token], b.Sound p := by
  have hframe := sound_frame h
  have hmark : (Branch.leaf n token).shape.role = .mark := Branch.role_mark (.inl hkind)
  refine sound_refill h (.node ⟨by simp, ?_, hframe.arranged.led.replace hkind⟩ fun b hb => ?_) ?_
  · have hlaid := hframe.arranged.laid
    simp only [List.map_append, List.map_cons, List.map_nil, hmark] at hlaid ⊢
    exact hlaid.replace hline fun h => by rw [List.length_map]; exact hsuite h
  · simp only [List.mem_append, List.mem_singleton] at hb
    rcases hb with (hb | rfl) | hb
    · exact hframe.part (by simp [hb])
    · exact .leaf ..
    · exact hframe.part (by simp [hb])
  · cases hbefore : f.before with
    | cons b before => exact Branch.opener?_cons ..
    | nil =>
      cases hsymbol : f.symbol with
      | suite =>
        have := hsuite hsymbol
        rw [hbefore] at this
        exact absurd this (by decide)
      | _ => rfl

/-- A verbatim leaf may take the place of an `async` and of the header behind it, unless the newline
of the suite that loses its header is pending. -/
theorem sound_keyword {key owner n : NodeId} {token leaf : Leaf} {symbol : Symbol}
    {pre header post : List Branch} {suite : Branch}
    (h : ∀ b ∈ fill (f :: above)
      [.leaf key token, .node owner symbol (pre ++ header ++ suite :: post)], b.Sound p)
    (hasync : token.kind = .async) (hkind : leaf.kind = .verbatim)
    (hsuite : suite.shape.role = .suite) (hvisited : ∀ m, suite.opener? = some m → ¬ p m) :
    ∀ b ∈ fill (f :: above) [.leaf n leaf, .node owner symbol (pre ++ suite :: post)],
      b.Sound p := by
  have hframe := sound_frame h
  have howner : (Branch.node owner symbol (pre ++ header ++ suite :: post)).Sound p :=
    sound_of_fill h _ (by simp)
  have hnosuite := (howner.arranged.laid.of_suite (by simp [hsuite])).2.1
  have hkey : (Branch.leaf key token).shape.role = .mark := Branch.role_mark (.inr hasync)
  have hmark : (Branch.leaf n leaf).shape.role = .mark := Branch.role_mark (.inl hkind)
  refine sound_refill h (.node ⟨by simp, ?_, ?_⟩ fun b hb => ?_) ?_
  · have hlaid := hframe.arranged.laid
    simp only [List.map_append, List.map_cons, List.map_nil, hmark, hkey] at hlaid ⊢
    exact hlaid
  · have hled := hframe.arranged.led
    rw [Branch.led_append, Branch.led_append] at hled ⊢
    obtain ⟨⟨hbefore, hrun⟩, hafter⟩ := hled
    refine ⟨⟨hbefore, ⟨fun _ m hm => (by cases hm), ⟨fun _ m hm => ?_, trivial⟩⟩⟩, ?_⟩
    · rw [Branch.opener?_of_ne_suite hnosuite] at hm
      cases hm
    · simp only [Branch.lastRole, List.getLast?_append] at hafter ⊢
      exact hafter
  · simp only [List.mem_append, List.mem_cons, List.not_mem_nil, or_false] at hb
    rcases hb with (hb | rfl | rfl) | hb
    · exact hframe.part (by simp [hb])
    · exact .leaf ..
    · exact howner.behead hsuite hvisited
    · exact hframe.part (by simp [hb])
  · cases hbefore : f.before with
    | cons b before => exact Branch.opener?_cons ..
    | nil =>
      cases hsymbol : f.symbol with
      | suite =>
        obtain ⟨body, -, heq⟩ := hsymbol ▸ hframe.arranged.laid
        rw [hbefore, List.nil_append, List.cons_append, List.map_cons, hkey] at heq
        cases (List.cons.inj heq).1
      | _ => rfl

end Context

end LineScope
