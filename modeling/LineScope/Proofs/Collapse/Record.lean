import LineScope.Proofs.Collapse.Failure
import LineScope.Proofs.Collapse.Shedding

/-!
# The record of a collapse

A `Collapse.Replacement` is one step of a pass that counts, with the store before and after it. The
line pass looks at attached newlines only, and all that it replaces hangs below the root. A step of
the statement pass replaces a node above the one whose turn it is, so it is as attached as that one.
-/
namespace LineScope

namespace Tree

variable {t : Tree} {n m c p leaf : NodeId}

/-- Whether a node hangs below the root does not change on the way up. -/
theorem WellFormed.isAttached_iff_of_below (h : t.WellFormed) (hnm : t.Below n m) :
    t.isAttached n = true ↔ t.isAttached m = true := by
  rw [h.isAttached_iff_below, h.isAttached_iff_below]
  refine ⟨fun hn => ?_, hnm.trans⟩
  rcases hnm.total_of_right_unique (isChild_rightUnique t) hn with hm | hm
  · exact hm
  · rw [eq_of_below_of_parent? h.root_parent hm]

theorem WellFormed.isAttached_iff_of_child (h : t.WellFormed) (hc : t.parent? c = some p) :
    t.isAttached c = true ↔ t.isAttached p = true := h.isAttached_iff_of_below (.single hc)

theorem eq_of_climb_eq_cons {steps : Nat} {above : List NodeId}
    (h : t.climb steps n = m :: above) : m = n := by
  cases steps with
  | zero => cases h
  | succ steps =>
    unfold climb at h
    split at h <;> exact (List.cons.inj h).1.symm

def IsLastChild (t : Tree) (c p : NodeId) : Prop :=
  t.parent? c = some p ∧ (t.children p).getLast? = some c

/-- The node ends with the leaf, or with another node that the first is the last leaf of. -/
abbrev EndsWith (t : Tree) (p c : NodeId) : Prop := Relation.ReflTransGen t.IsLastChild c p

theorem EndsWith.below (h : t.EndsWith p c) : t.Below c p :=
  Relation.ReflTransGen.mono (fun _ _ hstep => hstep.1) _ _ h

theorem isLastChild_rightUnique (t : Tree) : Relator.RightUnique t.IsLastChild :=
  fun _ _ _ hb hc => isChild_rightUnique t hb.1 hc.1

theorem WellFormed.endsWith_of_lastLeaf? (h : t.WellFormed) (hleaf : t.lastLeaf? n = some leaf) :
    t.EndsWith n leaf := by
  unfold lastLeaf? at hleaf
  generalize t.size = steps at hleaf
  induction steps generalizing n with
  | zero => cases hleaf
  | succ steps ih =>
    unfold descend at hleaf
    split at hleaf
    · next symbol children hpayload =>
      obtain ⟨c, hlast, hc⟩ := Option.bind_eq_some_iff.mp hleaf
      have hchildren := children_of_payload? hpayload
      refine (ih hc).tail ⟨h.mem_children.mp ?_, by rw [hchildren, hlast]⟩
      rw [hchildren]
      exact List.mem_of_getLast? hlast
    · rw [Option.some.inj hleaf]
    · cases hleaf

end Tree

namespace Collapse

open LineScope.Tree

section Regions

variable {t : Tree} {n m z leaf : NodeId} {keep : LineSet}

theorem endsWith_furthestLast {steps : Nat} (n : NodeId) :
    t.EndsWith (furthestLast t n (t.climb steps n).tail) n := by
  induction steps generalizing n with
  | zero => exact .refl
  | succ steps ih =>
    cases hp : t.parent? n with
    | none =>
      simp only [climb, hp]
      exact .refl
    | some p =>
      simp only [climb, hp, List.tail_cons]
      cases hclimb : t.climb steps p with
      | nil => exact .refl
      | cons q above =>
        obtain rfl := eq_of_climb_eq_cons hclimb
        rw [furthestLast]
        split
        · next hlast =>
          have habove := ih q
          rw [hclimb] at habove
          exact habove.head ⟨hp, hlast⟩
        · exact .refl

theorem endsWith_furthestEndingWith (t : Tree) (leaf : NodeId) :
    t.EndsWith (furthestEndingWith t leaf) leaf := endsWith_furthestLast leaf

/-- The nodes that a step of the statement pass decides about. -/
inductive RegionOf (t : Tree) (n : NodeId) : NodeId → Prop
  | line {newline : NodeId} (simple : t.symbol? n = some .simpleStmt)
    (last : t.lastLeaf? n = some newline) : RegionOf t n (furthestEndingWith t newline)
  | block {owner : NodeId} (block : t.symbol? n ≠ some .simpleStmt)
    (owned : suiteOwner? t n = some owner) : RegionOf t n owner

theorem suiteOwner?_below {owner : NodeId} (h : suiteOwner? t n = some owner) : t.Below n owner := by
  unfold suiteOwner? at h
  split at h
  · cases h
  · next p hp =>
    split at h
    · exact .head hp (.single h)
    · rw [← Option.some.inj h]
      exact .single hp

theorem RegionOf.isAttached_iff (h : RegionOf t n z) (ht : t.WellFormed) :
    t.isAttached n = true ↔ t.isAttached z = true := by
  cases h with
  | @line newline simple last =>
    rw [← ht.isAttached_iff_of_below (ht.endsWith_of_lastLeaf? last).below,
      ht.isAttached_iff_of_below (endsWith_furthestEndingWith t newline).below]
  | block block owned => exact ht.isAttached_iff_of_below (suiteOwner?_below owned)

end Regions

section Replacing

variable {t u : Tree} {n m z p head first : NodeId} {rest run : List NodeId} {keep : LineSet}

theorem parent?_detachAll {ns : List NodeId} (hm : m ∉ ns) :
    (detachAll t ns).2.parent? m = t.parent? m := by
  induction ns generalizing t with
  | nil => rfl
  | cons n rest ih =>
    rw [List.mem_cons, not_or] at hm
    rw [detachAll]
    split
    · exact ih hm.2
    · next index u hremove =>
      exact (ih hm.2).trans ((parent?_of_remove? hremove m).trans (if_neg (Ne.symm hm.1)))

theorem parent?_replaceRun (h : replaceRun t p head rest first = ⟨u, .ok true⟩) (hm : m < t.size)
    (hrun : m ∉ head :: rest) : u.parent? m = t.parent? m := by
  obtain ⟨-, leaf, index, -, hinsert⟩ := replaceRun_eq_ok h
  have hsize := (detachAll_spec (t.mapLeaf first Leaf.bare) (head :: rest)).1
  obtain ⟨-, -, hslots⟩ := insertChild_alloc_spec hinsert
  rw [hsize, size_mapLeaf] at hslots
  rw [(hslots m hm).2.2, parent?_detachAll hrun, parent?_mapLeaf]

theorem collapseNode_eq_ok (h : collapseNode t z = ⟨u, .ok true⟩) :
    ∃ p first last, t.parent? z = some p ∧ t.firstLeaf? z = some first ∧
      t.lastLeaf? z = some last ∧ first ≠ last ∧ replaceRun t p z [] first = ⟨u, .ok true⟩ := by
  unfold collapseNode at h
  split at h
  · cases h
  · next p hp =>
    split at h
    · next first last hfirst hlast =>
      split at h
      · cases h
      · next hne => exact ⟨p, first, last, hp, hfirst, hlast, hne, h⟩
    · cases h

theorem collapseRun_eq_ok (h : collapseRun t run = ⟨u, .ok true⟩) :
    ∃ head rest p first, run = head :: rest ∧ replaceRun t p head rest first = ⟨u, .ok true⟩ := by
  cases run with
  | nil => cases h
  | cons head rest =>
    rw [collapseRun] at h
    split at h
    · cases h
    · split at h
      · cases h
      · exact ⟨head, rest, _, _, rfl, h⟩

theorem statement_eq_ok (h : statement keep t n = ⟨u, .ok true⟩) :
    ∃ z, RegionOf t n z ∧ collapseNode t z = ⟨u, .ok true⟩ := by
  have hregion {z : NodeId} (h : (if misses t keep [z] then collapseNode t z else ⟨t, .ok false⟩) =
      (⟨u, .ok true⟩ : Outcome Bool)) : collapseNode t z = ⟨u, .ok true⟩ := by
    split at h
    · exact h
    · cases h
  unfold statement at h
  split at h
  · next hsimple =>
    unfold simpleStatement at h
    split at h
    · cases h
    · next newline hlast =>
      split at h
      · exact ⟨_, .line (eq_of_beq hsimple) hlast, hregion h⟩
      · cases h
  · next hsimple =>
    unfold suite at h
    split at h
    · cases h
    · split at h
      · cases h
      · next owner howner =>
        exact ⟨owner, .block (fun heq => hsimple (beq_iff_eq.mpr heq)) howner, hregion h⟩

end Replacing

/-- A step that counts: the store before it, the node whose turn it is, and the store after it. -/
structure Replacement where
  before : Tree
  visited : NodeId
  after : Tree

namespace Replacement

def Cuts (r : Replacement) (n : NodeId) : Prop :=
  (r.before.parent? n).isSome = true ∧ r.after.parent? n = none

instance (r : Replacement) (n : NodeId) : Decidable (r.Cuts n) := instDecidableAnd

def Attached (r : Replacement) : Prop := ∀ n, r.Cuts n → r.before.isAttached n = true

variable {t u : Tree} {n p head first z : NodeId} {rest : List NodeId} {keep : LineSet}

theorem attached_of_replaceRun (h : replaceRun t p head rest first = ⟨u, .ok true⟩)
    (hrun : ∀ m ∈ head :: rest, t.isAttached m = true) : Attached ⟨t, n, u⟩ := by
  rintro m ⟨hbefore, hafter⟩
  obtain ⟨q, hq⟩ := Option.isSome_iff_exists.mp hbefore
  refine hrun m (by_contra fun hm => ?_)
  rw [parent?_replaceRun h (lt_size_of_parent? hq) hm, hq] at hafter
  cases hafter

theorem attached_of_collapseNode (h : collapseNode t z = ⟨u, .ok true⟩)
    (hz : t.isAttached z = true) : Attached ⟨t, n, u⟩ := by
  obtain ⟨p, first, last, -, -, -, -, hrun⟩ := collapseNode_eq_ok h
  exact attached_of_replaceRun hrun (by simpa using hz)

/-- What gives way is attached if the statement whose turn it is is. -/
theorem attached_of_statement (ht : t.WellFormed) (h : statement keep t n = ⟨u, .ok true⟩)
    (hn : t.isAttached n = true) : Attached ⟨t, n, u⟩ := by
  obtain ⟨z, hz, hok⟩ := statement_eq_ok h
  exact attached_of_collapseNode hok ((hz.isAttached_iff ht).mp hn)

theorem attached_of_header {header : Except CollapseError (List NodeId)}
    (h : collapseHeader keep t header = ⟨u, .ok true⟩)
    (hrun : ∀ run, header = .ok run → ∀ m ∈ run, t.isAttached m = true) : Attached ⟨t, n, u⟩ := by
  cases header with
  | error e => cases h
  | ok run =>
    rw [collapseHeader] at h
    split at h
    · obtain ⟨head, rest, p, first, rfl, hok⟩ := collapseRun_eq_ok h
      exact attached_of_replaceRun hok (hrun _ rfl)
    · cases h

theorem isAttached_of_mem_matchHeader (ht : t.WellFormed) {owner newline : NodeId}
    {run : List NodeId} (howner : t.isAttached owner = true)
    (h : matchHeader t owner newline = .ok run) : ∀ m ∈ run, t.isAttached m = true := by
  intro m hm
  unfold matchHeader at h
  split at h
  · cases h
  · rw [← Except.ok.inj h] at hm
    have hchild := (List.takeWhile_prefix _).subset hm
    exact (ht.isAttached_iff_of_child (ht.mem_children.mp hchild)).mpr howner

theorem isAttached_of_mem_suiteHeader (ht : t.WellFormed) {block newline : NodeId}
    {run : List NodeId} (hblock : t.isAttached block = true)
    (h : suiteHeader t block newline = .ok run) : ∀ m ∈ run, t.isAttached m = true := by
  obtain ⟨owner, front, header, after, hparent, hchildren, -, hrun⟩ := suiteHeader_eq_ok h
  have howner := (ht.isAttached_iff_of_child hparent).mp hblock
  have hheader : ∀ m ∈ header, t.isAttached m = true := by
    intro m hm
    have hchild : m ∈ t.children owner := by
      rw [hchildren]
      simp [hm]
    exact (ht.isAttached_iff_of_child (ht.mem_children.mp hchild)).mpr howner
  rcases hrun with rfl | ⟨prev, hprev, rfl⟩
  · exact hheader
  · refine List.forall_mem_cons.mpr ⟨?_, hheader⟩
    obtain ⟨q, left, right, hq, hqchildren⟩ := prevSibling?_eq_some hprev
    have hchild : prev ∈ t.children q := by
      rw [hqchildren]
      simp
    exact (ht.isAttached_iff_of_child (ht.mem_children.mp hchild)).mpr
      ((ht.isAttached_iff_of_child hq).mp howner)

theorem isAttached_closedBy (ht : t.WellFormed) {newline : NodeId}
    (h : t.isAttached newline = true) : t.isAttached (closedBy t newline) = true := by
  have htop := (ht.isAttached_iff_of_below (endsWith_furthestEndingWith t newline).below).mp h
  unfold closedBy
  simp only
  split
  · next p hp =>
    split
    · exact (ht.isAttached_iff_of_child hp).mp htop
    · exact htop
  · exact htop

/-- The line pass passes detached newlines over, and what it replaces hangs together with the
newline. -/
theorem attached_of_logicalLine (ht : t.WellFormed) (h : logicalLine keep t n = ⟨u, .ok true⟩) :
    Attached ⟨t, n, u⟩ := by
  unfold logicalLine at h
  split at h
  · cases h
  · next hn =>
    have hn : t.isAttached n = true := by simpa using hn
    split at h
    · cases h
    · next p hp =>
      have hparent := (ht.isAttached_iff_of_child hp).mp hn
      split at h
      · exact attached_of_header h fun run => isAttached_of_mem_matchHeader ht hparent
      · exact attached_of_header h fun run => isAttached_of_mem_suiteHeader ht hparent
      · simp only at h
        split at h
        · exact attached_of_collapseNode h (isAttached_closedBy ht hn)
        · cases h

end Replacement

/-- The steps of a sweep that count, up to its first error. -/
def record (step : Tree → NodeId → Outcome Bool) (t : Tree) : List NodeId → List Replacement
  | [] => []
  | n :: rest =>
    match step t n with
    | ⟨_, .error _⟩ => []
    | ⟨u, .ok true⟩ => ⟨t, n, u⟩ :: record step u rest
    | ⟨u, .ok false⟩ => record step u rest

section Records

variable {t u v : Tree} {step : Tree → NodeId → Outcome Bool} {ns : List NodeId} {r : Replacement}

/-- The count of a sweep is the length of its record. -/
theorem sweep_record {count total : Nat} (h : sweep step t count ns = ⟨u, .ok total⟩) :
    total = count + (record step t ns).length := by
  induction ns generalizing t count with
  | nil =>
    cases h
    rfl
  | cons n rest ih =>
    rw [sweep] at h
    rw [record]
    split at h
    · cases h
    · next v done hv =>
      rw [hv]
      cases done with
      | false => exact ih h
      | true =>
        rw [ih h, List.length_cons]
        simp only [if_true]
        omega

/-- One replacement after the other leads from the first store to the last. -/
def Traces (t : Tree) : List Replacement → Tree → Prop
  | [], u => u = t
  | r :: rest, u => r.before = t ∧ Replaces t r.after ∧ Traces r.after rest u

theorem Traces.append {rs rs' : List Replacement} (h : Traces t rs u) (h' : Traces u rs' v) :
    Traces t (rs ++ rs') v := by
  induction rs generalizing t with
  | nil => exact h ▸ h'
  | cons r rest ih => exact ⟨h.1, h.2.1, ih h.2.2⟩

variable (hstep : ∀ (t : Tree) (n : NodeId), t.WellFormed → Settles t (step t n))

include hstep

/-- A sweep does nothing but the steps on its record, however it ends. -/
theorem traces_record (h : t.WellFormed) (count : Nat) (ns : List NodeId) :
    Traces t (record step t ns) (sweep step t count ns).tree := by
  induction ns generalizing t count with
  | nil => rfl
  | cons n rest ih =>
    have hn := hstep t n h
    rw [sweep, record]
    generalize step t n = out at hn
    cases hn with
    | stays => exact ih h _
    | replaces run => exact ⟨rfl, run, ih (wellFormed_of_replaces h (.single run)) _⟩
    | fails breach => rfl

/-- Each entry of a record is a step from a well-formed store. -/
theorem of_mem_record (h : t.WellFormed) (hr : r ∈ record step t ns) :
    r.before.WellFormed ∧ step r.before r.visited = ⟨r.after, .ok true⟩ := by
  induction ns generalizing t with
  | nil => cases hr
  | cons n rest ih =>
    have hn := hstep t n h
    rw [record] at hr
    generalize hout : step t n = out at hn hr
    cases hn with
    | stays => exact ih h hr
    | replaces run =>
      rcases List.mem_cons.mp hr with rfl | hr
      · exact ⟨h, hout⟩
      · exact ih (wellFormed_of_replaces h (.single run)) hr
    | fails breach => cases hr

end Records

end Collapse

open Collapse

def Tree.statementRecord (t : Tree) (ranges : List LineRange) (wholeStatements : Bool) :
    List Replacement :=
  if wholeStatements then record (statement (.ofRanges ranges)) t (statements t) else []

/-- The record of the line pass, which starts where the statement pass ends. -/
def Tree.lineRecord (t : Tree) (ranges : List LineRange) (wholeStatements : Bool) :
    List Replacement :=
  match if wholeStatements then statementPass (.ofRanges ranges) t else ⟨t, .ok 0⟩ with
  | ⟨_, .error _⟩ => []
  | ⟨u, .ok _⟩ => record (logicalLine (.ofRanges ranges)) u (newlines u)

theorem Tree.length_records {t u : Tree} {ranges : List LineRange} {wholeStatements : Bool}
    {summary : CollapseSummary}
    (h : t.collapseUnchanged ranges wholeStatements = ⟨u, .ok summary⟩) :
    summary.statements = (t.statementRecord ranges wholeStatements).length ∧
      summary.logicalLines = (t.lineRecord ranges wholeStatements).length := by
  unfold Tree.collapseUnchanged at h
  simp only at h
  split at h
  · cases h
  next v statements hfirst =>
  split at h
  · cases h
  next w logicalLines hlines =>
  cases h
  refine ⟨?_, ?_⟩
  · unfold Tree.statementRecord
    split at hfirst
    · next hws =>
      rw [if_pos hws, sweep_record hfirst, Nat.zero_add]
    · next hws =>
      cases hfirst
      rw [if_neg hws]
      rfl
  · rw [Tree.lineRecord, hfirst]
    simp only
    rw [sweep_record hlines, Nat.zero_add]

theorem Tree.wellFormed_of_statementPass {t u : Tree} (h : t.WellFormed) {keep : LineSet}
    {wholeStatements : Bool} {count : Nat}
    (hfirst : (if wholeStatements then statementPass keep t else ⟨t, .ok 0⟩) =
      (⟨u, .ok count⟩ : Outcome Nat)) : u.WellFormed := by
  split at hfirst
  · obtain ⟨more, -, hmore⟩ := sweep_reduces (fun t n => moves_statement t _ n) h hfirst
    exact hmore.wellFormed
  · cases hfirst
    exact h

/-- A collapse does nothing but the steps on the two records, whether it fails or not. -/
theorem Tree.traces_records {t : Tree} (h : t.WellFormed) (ranges : List LineRange)
    (wholeStatements : Bool) :
    Traces t (t.statementRecord ranges wholeStatements ++ t.lineRecord ranges wholeStatements)
      (t.collapseUnchanged ranges wholeStatements).tree := by
  have hstatements : Traces t (t.statementRecord ranges wholeStatements)
      (if wholeStatements then statementPass (.ofRanges ranges) t else ⟨t, .ok 0⟩).tree := by
    unfold Tree.statementRecord
    split
    · exact traces_record (fun t n h => settles_statement h n) h 0 (Collapse.statements t)
    · rfl
  unfold Tree.collapseUnchanged Tree.lineRecord
  simp only
  generalize hfirst : (if wholeStatements then statementPass (.ofRanges ranges) t else ⟨t, .ok 0⟩) =
    first at hstatements
  obtain ⟨u, error | count⟩ := first
  · rw [List.append_nil]
    exact hstatements
  · refine hstatements.append ?_
    have hlines : Traces u (record (logicalLine (.ofRanges ranges)) u (newlines u))
        (linePass (.ofRanges ranges) u).tree :=
      traces_record (fun t n h => settles_logicalLine h n) (wellFormed_of_statementPass h hfirst) 0 _
    simp only
    generalize linePass (.ofRanges ranges) u = second at hlines
    obtain ⟨v, error | count⟩ := second <;> exact hlines

theorem Tree.attached_of_mem_lineRecord {t : Tree} (h : t.WellFormed) {ranges : List LineRange}
    {wholeStatements : Bool} {r : Replacement} (hr : r ∈ t.lineRecord ranges wholeStatements) :
    r.Attached := by
  unfold Tree.lineRecord at hr
  split at hr
  · cases hr
  · next u count hfirst =>
    obtain ⟨hwf, hok⟩ := of_mem_record (fun t n h => settles_logicalLine h n)
      (wellFormed_of_statementPass h hfirst) hr
    exact Replacement.attached_of_logicalLine hwf hok

end LineScope
