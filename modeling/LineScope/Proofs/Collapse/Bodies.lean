import LineScope.Proofs.Collapse.Layout
import Mathlib.Data.List.Chain

/-!
# What headers and suites are made of

More of the shape of a program than collapsing without error asks for: right before a suite whose
newline is still `pending` stands a token of its header, and every suite ends with its mark and holds
a logical line or something verbatim. The folds of the line pass keep this.
-/
namespace LineScope

namespace Branch

inductive Lively : Branch → Prop
  | verbatim {n : NodeId} {token : Leaf} (kind : token.kind = .verbatim) : Lively (.leaf n token)
  | line {id : NodeId} {parts : List Branch} : Lively (.node id .simpleStmt parts)
  | part {id : NodeId} {symbol : Symbol} {parts : List Branch} {b : Branch} (mem : b ∈ parts)
      (lively : Lively b) : Lively (.node id symbol parts)

/-- The second of two parts is no pending suite unless the first is part of a header. -/
def Heads (pending : NodeId → Prop) (b s : Branch) : Prop :=
  ∀ n, s.opener? = some n → pending n → b.shape.role = .inline

structure Furnished (pending : NodeId → Prop) (symbol : Symbol) (parts : List Branch) : Prop where
  headed : parts.IsChain (Heads pending)
  closed : symbol = .suite → ∃ z ∈ parts.getLast?, z.shape.role = .mark
  lively : symbol = .suite → ∃ b ∈ parts, b.Lively

inductive Kempt (pending : NodeId → Prop) : Branch → Prop
  | leaf (id : NodeId) (token : Leaf) : Kempt pending (.leaf id token)
  | node {id : NodeId} {symbol : Symbol} {parts : List Branch}
      (furnished : Furnished pending symbol parts) (kempt : ∀ b ∈ parts, Kempt pending b) :
      Kempt pending (.node id symbol parts)

variable {p q : NodeId → Prop} {b x y : Branch} {id : NodeId} {symbol : Symbol}
  {parts before run after : List Branch}

theorem Kempt.furnished (h : Kempt p (.node id symbol parts)) : Furnished p symbol parts := by
  cases h with
  | node furnished _ => exact furnished

theorem Kempt.part (h : Kempt p (.node id symbol parts)) (hb : b ∈ parts) : b.Kempt p := by
  cases h with
  | node _ kempt => exact kempt b hb

theorem Kempt.mono (h : b.Kempt p) (hpq : ∀ n, q n → p n) : b.Kempt q := by
  induction b with
  | leaf id token => exact .leaf ..
  | node id symbol parts ih =>
    obtain ⟨hheaded, hclosed, hlively⟩ := h.furnished
    refine .node ⟨hheaded.imp fun b s hbs n hn hq => hbs n hn (hpq n hq), hclosed, hlively⟩
      fun b hb => ih b hb (h.part hb)

theorem Furnished.replace (h : Furnished p symbol (before ++ run ++ after))
    (hfront : ∀ b ∈ before.getLast?, Heads p b y) (hback : ∀ s ∈ after.head?, Heads p y s)
    (hlast : symbol = .suite → after = [] → y.shape.role = .mark) (hlively : y.Lively) :
    Furnished p symbol (before ++ [y] ++ after) := by
  obtain ⟨hheaded, hclosed, -⟩ := h
  rw [List.isChain_append, List.isChain_append] at hheaded
  refine ⟨?_, fun hsuite => ?_, fun _ => ⟨y, by simp, hlively⟩⟩
  · rw [List.isChain_append, List.isChain_append]
    refine ⟨⟨hheaded.1.1, .singleton y, ?_⟩, hheaded.2.1, ?_⟩
    · simpa using hfront
    · simpa using hback
  · rcases List.eq_nil_or_concat after with rfl | ⟨init, last, rfl⟩
    · exact ⟨y, by simp, hlast hsuite rfl⟩
    · rw [List.getLast?_append] at hclosed ⊢
      simpa using hclosed hsuite

theorem heads_leaf (b : Branch) (n : NodeId) (token : Leaf) : Heads p b (.leaf n token) :=
  fun _ hn => nomatch hn

/-- A suite that is not pending any more may lose its header. -/
theorem Kempt.behead {pre header post : List Branch} {suite : Branch}
    (h : (Branch.node id symbol (pre ++ header ++ suite :: post)).Kempt p)
    (hsymbol : symbol ≠ .suite) (hvisited : ∀ m, suite.opener? = some m → ¬ p m) :
    (Branch.node id symbol (pre ++ suite :: post)).Kempt p := by
  have hheaded := h.furnished.headed
  rw [List.isChain_append, List.isChain_append] at hheaded
  refine .node ⟨?_, fun heq => absurd heq hsymbol, fun heq => absurd heq hsymbol⟩ fun b hb => ?_
  · rw [List.isChain_append]
    refine ⟨hheaded.1.1, hheaded.2.1, fun b _ s hs m hm hp => ?_⟩
    obtain rfl := Option.some.inj hs
    exact absurd hp (hvisited m hm)
  · refine h.part ?_
    rcases List.mem_append.mp hb with hb | hb <;> simp [hb]

end Branch

namespace Context

open Branch

variable {p : NodeId → Prop} {c above : Context} {f : Frame} {run : List Branch}

theorem kempt_of_fill (h : ∀ b ∈ c.fill run, b.Kempt p) : ∀ b ∈ run, b.Kempt p := by
  induction c generalizing run with
  | nil => exact h
  | cons f above ih =>
    intro b hb
    exact (ih h _ (List.mem_singleton_self _)).part (by simp [hb])

theorem kempt_frame (h : ∀ b ∈ fill (f :: above) run, b.Kempt p) :
    (Branch.node f.id f.symbol (f.before ++ run ++ f.after)).Kempt p :=
  kempt_of_fill (c := above) h _ (List.mem_singleton_self _)

theorem kempt_refill {id : NodeId} {symbol : Symbol} {parts parts' : List Branch}
    (h : ∀ b ∈ c.fill [.node id symbol parts], b.Kempt p)
    (hkempt : (Branch.node id symbol parts').Kempt p)
    (hlively : (Branch.node id symbol parts').Lively)
    (hopener : (Branch.node id symbol parts').opener? = (Branch.node id symbol parts).opener?) :
    ∀ b ∈ c.fill [.node id symbol parts'], b.Kempt p := by
  induction c generalizing id symbol parts parts' with
  | nil =>
    intro b hb
    rw [List.mem_singleton.mp hb]
    exact hkempt
  | cons f above ih =>
    have hframe := kempt_frame h
    have hheaded := hframe.furnished.headed
    rw [List.isChain_append, List.isChain_append] at hheaded
    refine ih h (.node (hframe.furnished.replace ?_ ?_ ?_ hlively) fun b hb => ?_)
      (.part (b := .node id symbol parts') (by simp) hlively) ?_
    · intro b hb n hn
      rw [hopener] at hn
      exact hheaded.1.2.2 b hb _ rfl n hn
    · intro s hs n hn hpn
      exact hheaded.2.2 (.node id symbol parts) (by simp) s hs n hn hpn
    · intro hsuite hafter
      obtain ⟨z, hz, hrole⟩ := hframe.furnished.closed hsuite
      rw [hafter, List.append_nil, List.getLast?_concat, Option.mem_some_iff] at hz
      rw [← hz] at hrole
      exact hrole
    · simp only [List.mem_append, List.mem_singleton] at hb
      rcases hb with (hb | rfl) | hb
      · exact hframe.part (by simp [hb])
      · exact hkempt
      · exact hframe.part (by simp [hb])
    · cases f.before with
      | nil => cases f.symbol <;> rfl
      | cons b before => exact Branch.opener?_cons ..

/-- The first part of a node stays, unless it is no suite. -/
theorem opener?_frame {run' : List Branch} (hsuite : f.symbol = .suite → f.before ≠ []) :
    (Branch.node f.id f.symbol (f.before ++ run' ++ f.after)).opener? =
      (Branch.node f.id f.symbol (f.before ++ run ++ f.after)).opener? := by
  cases hbefore : f.before with
  | cons b before => exact Branch.opener?_cons ..
  | nil =>
    have hne : f.symbol ≠ .suite := fun hsymbol => hsuite hsymbol hbefore
    rw [opener?_of_ne_suite hne, opener?_of_ne_suite hne]

/-- A verbatim leaf may take the place of a run, unless a pending suite comes next. -/
theorem kempt_fold {n : NodeId} {token : Leaf} (h : ∀ b ∈ fill (f :: above) run, b.Kempt p)
    (hsuite : f.symbol = .suite → f.before ≠ []) (hkind : token.kind = .verbatim)
    (hnext : ∀ s ∈ f.after.head?, ∀ m, s.opener? = some m → ¬ p m) :
    ∀ b ∈ fill (f :: above) [.leaf n token], b.Kempt p := by
  have hframe := kempt_frame h
  have hlively : (Branch.leaf n token).Lively := .verbatim hkind
  refine kempt_refill h (.node (hframe.furnished.replace ?_ ?_ ?_ hlively) fun b hb => ?_)
    (.part (b := .leaf n token) (by simp) hlively) (opener?_frame hsuite)
  · intro b hb
    exact heads_leaf b n token
  · intro s hs m hm hp
    exact absurd hp (hnext s hs m hm)
  · intro _ _
    exact role_mark (.inl hkind)
  · simp only [List.mem_append, List.mem_singleton] at hb
    rcases hb with (hb | rfl) | hb
    · exact hframe.part (by simp [hb])
    · exact .leaf ..
    · exact hframe.part (by simp [hb])

/-- A verbatim leaf may take the place of an `async` and of the header behind it. -/
theorem kempt_keyword {key owner n : NodeId} {token leaf : Leaf} {symbol : Symbol}
    {pre header post : List Branch} {suite : Branch}
    (h : ∀ b ∈ fill (f :: above)
      [.leaf key token, .node owner symbol (pre ++ header ++ suite :: post)], b.Kempt p)
    (hsymbol : symbol ≠ .suite) (hsuite : f.symbol = .suite → f.before ≠ [])
    (hkind : leaf.kind = .verbatim) (hvisited : ∀ m, suite.opener? = some m → ¬ p m) :
    ∀ b ∈ fill (f :: above) [.leaf n leaf, .node owner symbol (pre ++ suite :: post)],
      b.Kempt p := by
  have hframe := kempt_frame h
  have howner : (Branch.node owner symbol (pre ++ header ++ suite :: post)).Kempt p :=
    kempt_of_fill h _ (by simp)
  have hlively : (Branch.leaf n leaf).Lively := .verbatim hkind
  obtain ⟨hheaded, hclosed, -⟩ := hframe.furnished
  rw [List.isChain_append, List.isChain_append] at hheaded
  refine kempt_refill h (.node ⟨?_, fun heq => ?_, fun _ => ⟨_, by simp, hlively⟩⟩ fun b hb => ?_)
    (.part (b := .leaf n leaf) (by simp) hlively) (opener?_frame hsuite)
  · rw [List.isChain_append, List.isChain_append]
    refine ⟨⟨hheaded.1.1, List.isChain_pair.mpr fun m hm _ => ?_, fun b _ s hs => ?_⟩, hheaded.2.1,
      fun b hb s hs m hm hp => ?_⟩
    · rw [opener?_of_ne_suite hsymbol] at hm
      cases hm
    · obtain rfl := Option.some.inj hs
      exact heads_leaf b n leaf
    · obtain rfl : Branch.node owner symbol (pre ++ suite :: post) = b := by simpa using hb
      exact hheaded.2.2 (.node owner symbol (pre ++ header ++ suite :: post)) (by simp) s hs m hm hp
  · obtain ⟨z, hz, hrole⟩ := hclosed heq
    rw [List.getLast?_append] at hz ⊢
    cases hafter : f.after.getLast? with
    | some last =>
      rw [hafter] at hz
      exact ⟨z, hz, hrole⟩
    | none =>
      rw [hafter] at hz
      obtain rfl : Branch.node owner symbol (pre ++ header ++ suite :: post) = z := by simpa using hz
      exact ⟨.node owner symbol (pre ++ suite :: post), by simp, hrole⟩
  · simp only [List.mem_append, List.mem_cons, List.not_mem_nil, or_false] at hb
    rcases hb with (hb | rfl | rfl) | hb
    · exact hframe.part (by simp [hb])
    · exact .leaf ..
    · exact howner.behead hsymbol hvisited
    · exact hframe.part (by simp [hb])

end Context

end LineScope
