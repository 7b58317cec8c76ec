import LineScope.Collapse.Unchanged
import LineScope.Proofs.Tree.Edits

/-!
# What collapsing preserves

Collapsing changes a store in four ways only: it takes the trivia from a leaf, detaches a node,
allots a verbatim leaf and attaches it. A property that these keep holds after any collapse if it
held before, however the collapse ends.
-/
namespace LineScope

namespace Collapse

/-- Kept by each of the changes that a collapse is made of. -/
structure Lasting (P : Tree → Prop) : Prop where
  bare : ∀ {t : Tree} {n : NodeId}, P t → P (t.mapLeaf n Leaf.bare)
  remove? : ∀ {t u : Tree} {n : NodeId} {index : Nat}, P t → t.remove? n = some (index, u) → P u
  alloc : ∀ {t : Tree} {leaf : Leaf}, leaf.kind = .verbatim → P t → P (t.alloc (.token leaf))
  insertChild : ∀ {t u : Tree} {parent index child : NodeId}, child < t.size → P t →
    t.insertChild parent index child = .ok u → P u

namespace Lasting

variable {P : Tree → Prop} {t : Tree} {keep : LineSet}

theorem detachAll (h : Lasting P) (ht : P t) (ns : List NodeId) : P (detachAll t ns).2 := by
  induction ns generalizing t with
  | nil => exact ht
  | cons n rest ih =>
    rw [Collapse.detachAll]
    split
    · exact ih ht
    · next index u hremove => exact ih (h.remove? ht hremove)

theorem replaceRun (h : Lasting P) (ht : P t) (parent head : NodeId) (rest : List NodeId)
    (first : NodeId) : P (replaceRun t parent head rest first).tree := by
  rw [Collapse.replaceRun]
  split
  · exact ht
  · have hcut := h.detachAll (h.bare (n := first) ht) (head :: rest)
    simp only
    split
    · next cut hdetach =>
      rw [show Leaf.bare = fun leaf => { leaf with trivia := "" } from rfl, hdetach] at hcut
      exact hcut
    · next index cut hdetach =>
      rw [show Leaf.bare = fun leaf => { leaf with trivia := "" } from rfl, hdetach] at hcut
      have hgrown := fun value line trivia =>
        @Lasting.alloc P h cut ⟨.verbatim, trivia, value, line⟩ rfl hcut
      split
      · exact hgrown ..
      · next done hinsert =>
        refine h.insertChild ?_ (hgrown _ _ _) hinsert
        rw [Tree.size_alloc]
        exact Nat.lt_succ_self _

theorem collapseNode (h : Lasting P) (ht : P t) (n : NodeId) : P (collapseNode t n).tree := by
  rw [Collapse.collapseNode]
  split
  · exact ht
  · split
    · split
      · exact ht
      · exact h.replaceRun ht ..
    · exact ht

theorem collapseRun (h : Lasting P) (ht : P t) (ns : List NodeId) : P (collapseRun t ns).tree := by
  cases ns with
  | nil => exact ht
  | cons head rest =>
    rw [Collapse.collapseRun]
    split
    · exact ht
    · split
      · exact ht
      · exact h.replaceRun ht ..

theorem region (h : Lasting P) (ht : P t) (n : NodeId) :
    P (if misses t keep [n] then Collapse.collapseNode t n else ⟨t, .ok false⟩ : Outcome Bool).tree := by
  split
  · exact h.collapseNode ht n
  · exact ht

theorem header (h : Lasting P) (ht : P t) (header : Except CollapseError (List NodeId)) :
    P (collapseHeader keep t header).tree := by
  cases header with
  | error e => exact ht
  | ok ns =>
    rw [collapseHeader]
    split
    · exact h.collapseRun ht ns
    · exact ht

theorem statement (h : Lasting P) (ht : P t) (n : NodeId) : P (statement keep t n).tree := by
  rw [Collapse.statement]
  split
  · rw [simpleStatement]
    split
    · exact ht
    · split
      · exact h.region ht _
      · exact ht
  · rw [Collapse.suite]
    split
    · exact ht
    · split
      · exact ht
      · exact h.region ht _

theorem logicalLine (h : Lasting P) (ht : P t) (n : NodeId) : P (logicalLine keep t n).tree := by
  rw [Collapse.logicalLine]
  split
  · exact ht
  · split
    · exact ht
    · split
      · exact h.header ht _
      · exact h.header ht _
      · exact h.region ht _

theorem sweep {step : Tree → NodeId → Outcome Bool}
    (hstep : ∀ {t : Tree} (n : NodeId), P t → P (step t n).tree) (ht : P t) (count : Nat)
    (ns : List NodeId) : P (sweep step t count ns).tree := by
  induction ns generalizing t count with
  | nil => exact ht
  | cons n rest ih =>
    have hnext := hstep n ht
    rw [Collapse.sweep]
    split
    · next u e hn =>
      rw [hn] at hnext
      exact hnext
    · next u done hn =>
      rw [hn] at hnext
      exact ih hnext _

theorem collapseUnchanged (h : Lasting P) (ht : P t) (ranges : List LineRange)
    (wholeStatements : Bool) : P (t.collapseUnchanged ranges wholeStatements).tree := by
  have hlines {u : Tree} (hu : P u) : P (linePass (.ofRanges ranges) u).tree :=
    sweep (P := P) (fun n ht => h.logicalLine ht n) hu 0 (newlines u)
  have hfirst : P (if wholeStatements then statementPass (.ofRanges ranges) t
      else ⟨t, .ok 0⟩ : Outcome Nat).tree := by
    split
    · exact sweep (P := P) (fun n ht => h.statement ht n) ht 0 (statements t)
    · exact ht
  rw [Tree.collapseUnchanged]
  split
  · next u e hpass =>
    rw [hpass] at hfirst
    exact hfirst
  · next u count hpass =>
    rw [hpass] at hfirst
    have hlast := hlines hfirst
    split
    · next v e hlines =>
      rw [hlines] at hlast
      exact hlast
    · next v total hlines =>
      rw [hlines] at hlast
      exact hlast

end Lasting

def SameLabels (t u : Tree) : Prop :=
  t.size ≤ u.size ∧ ∀ n < t.size, u.symbol? n = t.symbol? n ∧ u.kind? n = t.kind? n

theorem SameLabels.refl (t : Tree) : SameLabels t t := ⟨Nat.le_refl _, fun _ _ => ⟨rfl, rfl⟩⟩

/-- A change that keeps the labels of the present keeps those of the past. -/
theorem SameLabels.trans {t u v : Tree} (h : SameLabels t u) (h' : SameLabels u v) :
    SameLabels t v := by
  refine ⟨h.1.trans h'.1, fun n hn => ?_⟩
  obtain ⟨hsymbol, hkind⟩ := h'.2 n (hn.trans_le h.1)
  exact ⟨hsymbol.trans (h.2 n hn).1, hkind.trans (h.2 n hn).2⟩

theorem SameLabels.symbol? {t u : Tree} (h : SameLabels t u) {n : NodeId} {symbol : Symbol}
    (hn : t.symbol? n = some symbol) : u.symbol? n = some symbol := by
  refine (h.2 n (Nat.lt_of_not_le fun hle => ?_)).1.trans hn
  simp [Tree.symbol?, Tree.payload?_of_le hle] at hn

theorem SameLabels.isToken {t u : Tree} (h : SameLabels t u) {n : NodeId} {kind : TokenKind}
    (hn : t.isToken n kind = true) : u.isToken n kind = true := by
  rw [Tree.isToken, (h.2 n (Nat.lt_of_not_le fun hle => ?_)).2]
  · exact hn
  · simp [Tree.isToken, Tree.kind?, Tree.leaf?, Tree.payload?_of_le hle] at hn

theorem sameLabels_relink (t : Tree) (p n : NodeId) (f : List NodeId → List NodeId)
    (parent : Option NodeId) : SameLabels t ((t.mapChildren p f).setParent n parent) := by
  refine ⟨by rw [Tree.size_setParent, Tree.size_mapChildren], fun m _ => ⟨?_, ?_⟩⟩
  · rw [← Tree.symbol?_mapChildren t p f m, Tree.symbol?, Tree.symbol?, Tree.payload?_setParent]
  · rw [Tree.kind?, Tree.kind?, ← Tree.leaf?_mapChildren t p f m, Tree.leaf?, Tree.leaf?,
      Tree.payload?_setParent]

theorem lasting_sameLabels (t : Tree) : Lasting (SameLabels t) where
  bare {u n} h := h.trans ⟨by rw [Tree.size_mapLeaf], fun m _ => by
    rw [Tree.symbol?_mapLeaf, Tree.kind?, Tree.kind?, Tree.leaf?_mapLeaf]
    refine ⟨rfl, ?_⟩
    split
    · cases u.leaf? m <;> rfl
    · rfl⟩
  remove? h hremove := by
    obtain ⟨p, -, rfl⟩ := Tree.remove?_eq_some hremove
    exact h.trans (sameLabels_relink ..)
  alloc _ h := h.trans ⟨by rw [Tree.size_alloc]; exact Nat.le_succ _, fun m hm => by
    simp only [Tree.symbol?, Tree.kind?, Tree.leaf?, Tree.payload?_alloc, if_neg (Nat.ne_of_lt hm),
      and_self]⟩
  insertChild _ h hinsert := by
    obtain ⟨-, -, -, -, -, rfl⟩ := Tree.insertChild_eq_ok hinsert
    exact h.trans (sameLabels_relink ..)

end Collapse

end LineScope
