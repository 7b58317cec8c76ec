import LineScope.Proofs.Tree.Reachable

/-!
# What a collapse leaves of the old nodes

Who holds node numbers across a collapse finds the same nodes under them. A replacement allots one
slot, for the verbatim leaf, and takes links away; the only token it writes to is the first of the
run, and that one is no longer below the root when the replacement is done.
-/
namespace LineScope

namespace Tree

variable {t : Tree} {n m : NodeId}

theorem WellFormed.below_of_descend (h : t.WellFormed) {choose : List NodeId → Option NodeId}
    (hchoose : ∀ {ns : List NodeId} {c : NodeId}, choose ns = some c → c ∈ ns) {steps : Nat}
    (hm : t.descend choose steps n = some m) : t.Below m n := by
  induction steps generalizing n with
  | zero => cases hm
  | succ steps ih =>
    unfold descend at hm
    split at hm
    · next symbol children hpayload =>
      obtain ⟨c, hc, hm⟩ := Option.bind_eq_some_iff.mp hm
      refine (ih hm).tail (h.mem_children.mp ?_)
      rw [children_of_payload? hpayload]
      exact hchoose hc
    · rw [Option.some.inj hm]
    · cases hm

end Tree

namespace Collapse

open LineScope.Tree

/-- The slots of `t` are still there in `u`, with the links that are left, and all others are
verbatim leaves. -/
structure Sheds (t u : Tree) : Prop where
  size_le : t.size ≤ u.size
  symbol? : ∀ n < t.size, u.symbol? n = t.symbol? n
  /-- Kind, value and line of a token are kept. -/
  token : ∀ n < t.size, (u.leaf? n).map Leaf.bare = (t.leaf? n).map Leaf.bare
  /-- A node keeps its parent or has none. -/
  parent? : ∀ n < t.size, u.parent? n = t.parent? n ∨ u.parent? n = none
  fresh : ∀ n, t.size ≤ n → n < u.size → u.isToken n .verbatim = true

namespace Sheds

variable {t u v : Tree} {n p index c : NodeId}

theorem refl (t : Tree) : Sheds t t where
  size_le := Nat.le_refl _
  symbol? _ _ := rfl
  token _ _ := rfl
  parent? _ _ := .inl rfl
  fresh _ hle hlt := absurd hlt (Nat.not_lt.mpr hle)

theorem kind? (h : Sheds t u) (hn : n < t.size) : u.kind? n = t.kind? n := by
  have hkind := congrArg (Option.map Leaf.kind) (h.token n hn)
  rw [Option.map_map, Option.map_map] at hkind
  exact hkind

theorem trans (h : Sheds t u) (h' : Sheds u v) : Sheds t v where
  size_le := h.size_le.trans h'.size_le
  symbol? n hn := (h'.symbol? n (hn.trans_le h.size_le)).trans (h.symbol? n hn)
  token n hn := (h'.token n (hn.trans_le h.size_le)).trans (h.token n hn)
  parent? n hn := by
    rcases h'.parent? n (hn.trans_le h.size_le) with hv | hv
    · rw [hv]
      exact h.parent? n hn
    · exact .inr hv
  fresh n hle hlt := by
    by_cases hn : n < u.size
    · rw [isToken, h'.kind? hn]
      exact h.fresh n hle hn
    · exact h'.fresh n (Nat.not_lt.mp hn) hlt

theorem parent_of_some (h : Sheds t u) (hn : n < t.size) (hp : u.parent? n = some p) :
    t.parent? n = some p := by
  rcases h.parent? n hn with hkept | hgone
  · rw [← hkept, hp]
  · rw [hgone] at hp
    cases hp

theorem below (h : Sheds t u) (ht : t.Linked) (hn : n < t.size) {m : NodeId} (hm : u.Below n m) :
    t.Below n m := by
  induction hm using Relation.ReflTransGen.head_induction_on with
  | refl => exact .refl
  | head hp _ ih =>
    have hold := h.parent_of_some hn hp
    exact (ih (ht.parent_lt_size hold)).head hold

end Sheds

/-- One run gave way to a leaf in the new slot: `head` was cut off, and `first` lost its trivia. -/
structure Swaps (t u : Tree) (head first : NodeId) : Prop where
  size : u.size = t.size + 1
  fresh : u.isToken t.size .verbatim = true
  symbol? : ∀ n < t.size, u.symbol? n = t.symbol? n
  leaf? : ∀ n < t.size, u.leaf? n = if first = n then (t.leaf? n).map Leaf.bare else t.leaf? n
  parent? : ∀ n < t.size, u.parent? n = t.parent? n ∨ u.parent? n = none
  cut : u.parent? head = none

section Relinking

variable {t u : Tree} {n m p index : NodeId}

theorem parent?_of_remove? (h : t.remove? n = some (index, u)) (m : NodeId) :
    u.parent? m = if n = m then none else t.parent? m := by
  obtain ⟨p, -, rfl⟩ := remove?_eq_some h
  rw [parent?_setParent, parent?_mapChildren, ite_self]

/-- Detaching nodes changes links only, and takes away only. -/
theorem detachAll_spec (t : Tree) (ns : List NodeId) :
    (detachAll t ns).2.size = t.size ∧
      ∀ m, (detachAll t ns).2.leaf? m = t.leaf? m ∧ (detachAll t ns).2.symbol? m = t.symbol? m ∧
        ((detachAll t ns).2.parent? m = t.parent? m ∨ (detachAll t ns).2.parent? m = none) := by
  induction ns generalizing t with
  | nil => exact ⟨rfl, fun m => ⟨rfl, rfl, .inl rfl⟩⟩
  | cons n rest ih =>
    rw [detachAll]
    split
    · exact ih t
    · next index u hremove =>
      obtain ⟨hsize, hslots⟩ := ih u
      have hparent := parent?_of_remove? hremove
      obtain ⟨p, -, rfl⟩ := remove?_eq_some hremove
      refine ⟨by rw [hsize, size_setParent, size_mapChildren], fun m => ?_⟩
      obtain ⟨hleaf, hsymbol, hlink⟩ := hslots m
      refine ⟨hleaf.trans (leaf?_relink ..), hsymbol.trans (symbol?_relink ..), ?_⟩
      rw [hparent] at hlink
      split at hlink
      · exact .inr (hlink.elim id id)
      · exact hlink

/-- The first of the nodes is detached for good if it was a child. -/
theorem parent?_detachAll_head (h : t.Linked) (hp : t.parent? n = some p) (rest : List NodeId) :
    (detachAll t (n :: rest)).2.parent? n = none := by
  have hmem := h.mem_children.mpr hp
  obtain ⟨symbol, hpayload⟩ := exists_interior_of_mem_children hmem
  obtain ⟨before, after, hsplit⟩ := List.append_of_mem hmem
  rw [hsplit] at hpayload
  obtain ⟨u, hremove, -, -, hparent, -⟩ := h.remove? hpayload
  have hgone : u.parent? n = none := by rw [hparent, if_pos rfl]
  rw [detachAll, hremove]
  exact ((detachAll_spec u rest).2 n).2.2.elim (·.trans hgone) id

theorem insertChild_alloc_spec {leaf : Leaf}
    (h : (t.alloc (.token leaf)).insertChild p index t.size = .ok u) :
    u.size = t.size + 1 ∧ u.leaf? t.size = some leaf ∧
      ∀ n < t.size, u.leaf? n = t.leaf? n ∧ u.symbol? n = t.symbol? n ∧
        u.parent? n = t.parent? n := by
  have hparent := parent?_of_insertChild h (by rw [size_alloc]; exact Nat.lt_succ_self _)
  obtain ⟨-, -, -, -, -, rfl⟩ := insertChild_eq_ok h
  refine ⟨by rw [size_setParent, size_mapChildren, size_alloc], ?_, fun n hn => ⟨?_, ?_, ?_⟩⟩
  · rw [leaf?_relink, leaf?, payload?_alloc, if_pos rfl]
  · rw [leaf?_relink, leaf?, payload?_alloc, if_neg (Nat.ne_of_lt hn)]
    rfl
  · rw [symbol?_relink, symbol?, payload?_alloc, if_neg (Nat.ne_of_lt hn)]
    rfl
  · rw [hparent, if_neg (Nat.ne_of_lt hn), parent?_alloc]

theorem replaceRun_eq_ok {head first : NodeId} {rest : List NodeId} {done : Bool}
    (h : replaceRun t p head rest first = ⟨u, .ok done⟩) :
    done = true ∧ ∃ leaf index, leaf.kind = .verbatim ∧
      ((detachAll (t.mapLeaf first Leaf.bare) (head :: rest)).2.alloc (.token leaf)).insertChild p
        index (detachAll (t.mapLeaf first Leaf.bare) (head :: rest)).2.size = .ok u := by
  unfold replaceRun at h
  split at h
  · cases h
  · next leaf hleaf =>
    simp only at h
    split at h
    · cases h
    · next index cut hdetach =>
      split at h
      · cases h
      · next done hinsert =>
        simp only [Outcome.mk.injEq, Except.ok.injEq] at h
        have hcut : detachAll (t.mapLeaf first Leaf.bare) (head :: rest) = (some index, cut) :=
          hdetach
        rw [hcut]
        exact ⟨h.2.symm, _, index, rfl, h.1 ▸ hinsert⟩

theorem swaps_of_replaceRun (h : t.WellFormed) {head first : NodeId} {rest : List NodeId}
    {done : Bool}
    (hp : t.parent? head = some p) (hrun : replaceRun t p head rest first = ⟨u, .ok done⟩) :
    Swaps t u head first := by
  have hlt : head < t.size := lt_size_of_parent? hp
  have hcut := parent?_detachAll_head (h.mapLeaf (n := first) Leaf.bare).toLinked
    ((parent?_mapLeaf ..).trans hp) rest
  obtain ⟨hsize, hslots⟩ := detachAll_spec (t.mapLeaf first Leaf.bare) (head :: rest)
  obtain ⟨-, leaf, index, hleaf, hinsert⟩ := replaceRun_eq_ok hrun
  obtain ⟨hsize', hfresh, hkept⟩ := insertChild_alloc_spec hinsert
  rw [hsize, size_mapLeaf] at hsize' hfresh hkept
  refine ⟨hsize', ?_, fun n hn => ?_, fun n hn => ?_, fun n hn => ?_, ?_⟩
  · simp [isToken, kind?, hfresh, hleaf]
  · rw [(hkept n hn).2.1, (hslots n).2.1, symbol?_mapLeaf]
  · rw [(hkept n hn).1, (hslots n).1, leaf?_mapLeaf]
  · rw [(hkept n hn).2.2, ← parent?_mapLeaf t first Leaf.bare n]
    exact (hslots n).2.2
  · rw [(hkept head hlt).2.2, hcut]

end Relinking

/-- What a step may do to a store: nothing, give up, or put one leaf in the place of a run, told
with the parent and the first leaf of the run. -/
inductive Moves (t : Tree) : Outcome Bool → Prop
  | stays : Moves t ⟨t, .ok false⟩
  | fails (e : CollapseError) : Moves t ⟨t, .error e⟩
  | replaces {head parent first : NodeId} (rest : List NodeId)
      (hparent : t.parent? head = some parent) (hfirst : t.firstLeaf? head = some first) :
      Moves t (replaceRun t parent head rest first)

section Steps

variable (t : Tree) (keep : LineSet)

theorem moves_collapseNode (n : NodeId) : Moves t (collapseNode t n) := by
  unfold collapseNode
  split
  · exact .stays
  · next parent hparent =>
    split
    · next first last hfirst hlast =>
      split
      · exact .fails _
      · exact .replaces [] hparent hfirst
    · exact .fails _

theorem moves_collapseRun (run : List NodeId) : Moves t (collapseRun t run) := by
  cases run with
  | nil => exact .stays
  | cons head rest =>
    rw [collapseRun]
    split
    · exact .stays
    · next parent hparent =>
      split
      · exact .fails _
      · next first hfirst => exact .replaces rest hparent hfirst

theorem moves_region (n : NodeId) :
    Moves t (if misses t keep [n] then collapseNode t n else ⟨t, .ok false⟩) := by
  split
  · exact moves_collapseNode t n
  · exact .stays

theorem moves_header (header : Except CollapseError (List NodeId)) :
    Moves t (collapseHeader keep t header) := by
  cases header with
  | error e => exact .fails e
  | ok run =>
    rw [collapseHeader]
    split
    · exact moves_collapseRun t run
    · exact .stays

theorem moves_statement (n : NodeId) : Moves t (statement keep t n) := by
  unfold statement
  split
  · unfold simpleStatement
    split
    · exact .stays
    · split
      · exact moves_region t keep _
      · exact .fails _
  · unfold suite
    split
    · exact .stays
    · split
      · exact .stays
      · exact moves_region t keep _

theorem moves_logicalLine (n : NodeId) : Moves t (logicalLine keep t n) := by
  unfold logicalLine
  split
  · exact .stays
  · split
    · exact .stays
    · split
      · exact moves_header t keep _
      · exact moves_header t keep _
      · exact moves_region t keep _

end Steps

/-- Nothing below a node is attached once the node has been cut off. -/
theorem Sheds.not_below_root {t u : Tree} (h : Sheds t u) (ht : t.WellFormed) {n head p : NodeId}
    (hhead : t.parent? head = some p) (hcut : u.parent? head = none) (hn : t.Below n head) :
    ¬ u.Below n rootId := by
  have hroot {c q : NodeId} (hc : t.parent? c = some q) : c ≠ rootId := by
    rintro rfl
    rw [ht.root_parent] at hc
    cases hc
  induction hn using Relation.ReflTransGen.head_induction_on with
  | refl =>
    intro hup
    rcases Relation.ReflTransGen.cases_head hup with heq | ⟨q, hq, -⟩
    · exact hroot hhead heq
    · rw [IsChild, hcut] at hq
      cases hq
  | @head c q hc _ ih =>
    intro hup
    rcases Relation.ReflTransGen.cases_head hup with heq | ⟨q', hq', hup⟩
    · exact hroot hc heq
    · have hold := h.parent_of_some (lt_size_of_parent? hc) hq'
      exact ih (isChild_rightUnique t hold hc ▸ hup)

/-- Old tokens that are still attached have kept what stands in front of them. -/
def KeepsAttached (t u : Tree) : Prop :=
  ∀ n < t.size, u.isAttached n = true → u.leaf? n = t.leaf? n

theorem KeepsAttached.trans {t u v : Tree} (h : KeepsAttached t u) (h' : KeepsAttached u v)
    (htu : Sheds t u) (huv : Sheds u v) (hu : u.WellFormed) (hv : v.WellFormed) :
    KeepsAttached t v := by
  intro n hn hattached
  have hlt := hn.trans_le htu.size_le
  have hbefore : u.isAttached n = true := hu.isAttached_iff_below.mpr
    (huv.below hu.toLinked hlt (hv.isAttached_iff_below.mp hattached))
  rw [h' n hlt hattached, h n hn hbefore]

theorem Swaps.sheds {t u : Tree} {head first : NodeId} (h : Swaps t u head first) : Sheds t u where
  size_le := by
    rw [h.size]
    exact Nat.le_succ _
  symbol? := h.symbol?
  token n hn := by
    rw [h.leaf? n hn]
    split
    · rw [Option.map_map]
      rfl
    · rfl
  parent? := h.parent?
  fresh n hle hlt := by
    rw [h.size] at hlt
    obtain rfl : n = t.size := Nat.le_antisymm (Nat.le_of_lt_succ hlt) hle
    exact h.fresh

theorem Swaps.keepsAttached {t u : Tree} {head first p : NodeId} (h : Swaps t u head first)
    (ht : t.WellFormed) (hu : u.WellFormed) (hp : t.parent? head = some p)
    (hfirst : t.firstLeaf? head = some first) : KeepsAttached t u := by
  intro n hn hattached
  rw [h.leaf? n hn, if_neg]
  rintro rfl
  have hbelow := ht.below_of_descend (fun {ns c} => List.mem_of_mem_head?) hfirst
  exact h.sheds.not_below_root ht hp h.cut hbelow (hu.isAttached_iff_below.mp hattached)

/-- What stretches of a collapse do one after the other. -/
structure Reduces (t u : Tree) (count : Nat) : Prop where
  wellFormed : u.WellFormed
  size : u.size = t.size + count
  sheds : Sheds t u
  keepsAttached : KeepsAttached t u

namespace Reduces

variable {t u v : Tree} {count count' : Nat}

theorem refl (h : t.WellFormed) : Reduces t t 0 := ⟨h, rfl, .refl t, fun _ _ _ => rfl⟩

theorem trans (h : Reduces t u count) (h' : Reduces u v count') :
    Reduces t v (count + count') where
  wellFormed := h'.wellFormed
  size := by rw [h'.size, h.size, Nat.add_assoc]
  sheds := h.sheds.trans h'.sheds
  keepsAttached :=
    h.keepsAttached.trans h'.keepsAttached h.sheds h'.sheds h.wellFormed h'.wellFormed

end Reduces

section Passes

variable {t u : Tree} {step : Tree → NodeId → Outcome Bool}

theorem Moves.reduces {out : Outcome Bool} (h : Moves t out) (ht : t.WellFormed) {done : Bool}
    (hout : out = ⟨u, .ok done⟩) : Reduces t u (if done then 1 else 0) := by
  cases h with
  | stays =>
    cases hout
    exact .refl ht
  | fails e => cases hout
  | @replaces head parent first rest hparent hfirst =>
    have hu : u.WellFormed := by
      simpa only [hout] using lasting_wellFormed.replaceRun ht parent head rest first
    have hswaps := swaps_of_replaceRun ht hparent hout
    obtain ⟨rfl, -⟩ := replaceRun_eq_ok hout
    exact ⟨hu, hswaps.size, hswaps.sheds, hswaps.keepsAttached ht hu hparent hfirst⟩

theorem sweep_reduces (hstep : ∀ (t : Tree) (n : NodeId), Moves t (step t n)) (ht : t.WellFormed)
    {count total : Nat} {ns : List NodeId} (h : sweep step t count ns = ⟨u, .ok total⟩) :
    ∃ more, total = count + more ∧ Reduces t u more := by
  induction ns generalizing t count with
  | nil =>
    cases h
    exact ⟨0, rfl, .refl ht⟩
  | cons n rest ih =>
    rw [sweep] at h
    split at h
    · cases h
    · next v done hv =>
      have hn := (hstep t n).reduces ht hv
      obtain ⟨more, rfl, hmore⟩ := ih hn.wellFormed h
      refine ⟨(if done then 1 else 0) + more, ?_, hn.trans hmore⟩
      cases done
      · simp
      · simp [Nat.add_assoc]

end Passes

end Collapse

open Collapse

/-- A collapse that goes through allots as many slots as it reports regions, all of them for
verbatim leaves. The old nodes keep what they are, and each keeps its parent or is cut off from it;
those that are still attached keep their tokens as they were. -/
theorem Tree.collapseUnchanged_sheds {t u : Tree} (h : t.WellFormed) (ranges : List LineRange)
    (wholeStatements : Bool) {summary : CollapseSummary}
    (hok : t.collapseUnchanged ranges wholeStatements = ⟨u, .ok summary⟩) :
    u.size = t.size + summary.total ∧ Sheds t u ∧ KeepsAttached t u := by
  unfold Tree.collapseUnchanged at hok
  simp only at hok
  split at hok
  · cases hok
  next v statements hfirst =>
  have hstatements : Reduces t v statements := by
    split at hfirst
    · obtain ⟨more, rfl, hmore⟩ := sweep_reduces (fun t n => moves_statement t _ n) h hfirst
      rwa [Nat.zero_add]
    · cases hfirst
      exact .refl h
  split at hok
  · cases hok
  next w logicalLines hlines =>
  obtain ⟨more, rfl, hmore⟩ :=
    sweep_reduces (fun t n => moves_logicalLine t _ n) hstatements.wellFormed hlines
  cases hok
  have hall := hstatements.trans hmore
  rw [← Nat.zero_add more] at hall
  exact ⟨hall.size, hall.sheds, hall.keepsAttached⟩

def halfKept : Tree :=
  .build .fileInput [.enter .simpleStmt, .token ⟨.name, "", "a", 1⟩, .token ⟨.newline, "", "\n", 1⟩,
    .leave, .enter .ifStmt, .token ⟨.keyword, "", "if", 2⟩, .token ⟨.name, " ", "x", 2⟩,
    .token ⟨.op, "", ":", 2⟩, .enter .suite, .token ⟨.newline, "", "\n", 2⟩,
    .token ⟨.indent, "", "", 3⟩, .enter .simpleStmt, .token ⟨.name, "    ", "b", 3⟩,
    .token ⟨.newline, "", "\n", 3⟩, .leave, .token ⟨.dedent, "", "", 3⟩, .leave, .leave,
    .token ⟨.endMarker, "", "", 4⟩]

/-- Each pass replaces one region of it. -/
theorem halfKept_sheds :
    halfKept.WellFormed ∧ ∃ u, halfKept.collapseUnchanged [⟨3, 3⟩] true = ⟨u, .ok ⟨1, 1⟩⟩ ∧
      u.size = halfKept.size + 2 ∧ Sheds halfKept u ∧ KeepsAttached halfKept u := by
  have hwf : halfKept.WellFormed := Tree.build_wellFormed ..
  have hresult : (halfKept.collapseUnchanged [⟨3, 3⟩] true).result = .ok ⟨1, 1⟩ := by decide +kernel
  have hok : halfKept.collapseUnchanged [⟨3, 3⟩] true =
      ⟨(halfKept.collapseUnchanged [⟨3, 3⟩] true).tree, .ok ⟨1, 1⟩⟩ := by
    rw [← hresult]
  exact ⟨hwf, _, hok, Tree.collapseUnchanged_sheds hwf [⟨3, 3⟩] true hok⟩

end LineScope
