import LineScope.Collapse.Unchanged
import LineScope.Proofs.Collapse.Coarsening
import LineScope.Proofs.Tree.Numbering

/-!
# Collapsing a program

What is left of a file of statements after both passes, and that neither fails on it.
-/
namespace LineScope

open Grammar

/-- The store holds a tree of this shape below its root. -/
def Tree.HasShape (t : Tree) (shape : Shape) : Prop :=
  ∃ root : Branch, root.id = rootId ∧ root.shape = shape ∧ t.Holds [root]

/-- The store holds a file of statements without verbatim leaves, whose lines ascend. -/
structure Tree.IsProgram (t : Tree) (code : Block) (endMarker : Leaf) : Prop where
  shape : t.HasShape (fileShape code endMarker)
  wf : code.Wf
  kind : endMarker.kind = .endMarker
  fresh : ∀ x ∈ code.tokens, x.kind ≠ .verbatim
  ascending : Leaf.LinesAscend (code.tokens ++ [endMarker])

theorem Tree.Holds.tokens_root {t : Tree} {root : Branch} {others : List Branch}
    (h : t.Holds (root :: others)) (hid : root.id = rootId) :
    t.tokens [rootId] = root.shape.tokens := by
  have hnodup : (Branch.idsOfAll [root]).Nodup := by
    have hall := h.nodup
    rw [Branch.idsOfAll, List.nodup_append] at hall
    simpa [Branch.idsOfAll] using hall.1
  have heq := @tokens_eq t [root] (by simpa using ⟨none, h.grows root (by simp)⟩) hnodup
  rw [List.map_singleton, hid] at heq
  rw [heq, Branch.tokens_shape, Branch.leavesOfAll, Branch.leavesOfAll, List.append_nil]

theorem Grammar.tokens_fileShape (code : Block) (endMarker : Leaf) :
    (fileShape code endMarker).tokens = code.tokens ++ [endMarker] := by
  simp [fileShape, Shape.tokens, Shape.tokensOfAll, Block.tokens]

def Tree.ofProgram (code : Block) (endMarker : Leaf) : Tree :=
  .ofShapes .fileInput (code.shapes ++ [.leaf endMarker])

theorem Tree.ofProgram_hasShape (code : Block) (endMarker : Leaf) :
    (Tree.ofProgram code endMarker).HasShape (fileShape code endMarker) := by
  obtain ⟨root, hid, hshape, hholds, -⟩ := ofShapes_holds .fileInput (code.shapes ++ [.leaf endMarker])
  exact ⟨root, hid, hshape, hholds⟩

theorem Tree.ofProgram_isProgram {code : Block} {endMarker : Leaf} (hwf : code.Wf)
    (hkind : endMarker.kind = .endMarker) (hfresh : ∀ x ∈ code.tokens, x.kind ≠ .verbatim)
    (hascending : Leaf.LinesAscend (code.tokens ++ [endMarker])) :
    (Tree.ofProgram code endMarker).IsProgram code endMarker :=
  ⟨ofProgram_hasShape code endMarker, hwf, hkind, hfresh, hascending⟩

theorem Grammar.isHeader_leaves {tokens : List Leaf} (hne : tokens ≠ [])
    (h : ∀ x ∈ tokens, x.kind.isOrdinary = true) : IsHeader (tokens.map .leaf) := by
  refine ⟨by simpa using hne, fun s hs => ?_⟩
  obtain ⟨x, hx, rfl⟩ := List.mem_map.mp hs
  exact .leaf (h x hx)

namespace Collapse

def sealedFirst (keep : LineSet) (wholeStatements : Bool) (code : Block) : Block :=
  if wholeStatements then sealBlock keep code else code

variable {t : Tree} {code : Block} {endMarker : Leaf}

theorem tokens_program (h : t.IsProgram code endMarker) :
    t.tokens [rootId] = code.tokens ++ [endMarker] := by
  obtain ⟨root, hid, hshape, hholds⟩ := h.shape
  rw [hholds.tokens_root hid, hshape, tokens_fileShape]

theorem coarsens_sealedFirst (h : t.IsProgram code endMarker) (Header : List Leaf → Prop)
    (keep : LineSet) (wholeStatements : Bool) :
    Coarsens Header code.tokens (sealedFirst keep wholeStatements code).tokens := by
  unfold sealedFirst
  split
  · exact coarsens_sealBlock code h.wf h.fresh
  · exact .refl _

theorem sealedFirst_wf (h : code.Wf) (keep : LineSet) (wholeStatements : Bool) :
    (sealedFirst keep wholeStatements code).Wf := by
  unfold sealedFirst
  split
  · exact sealBlock_wf code h
  · exact h

theorem sealedFirst_headers {P : List Shape → Prop} (h : code.Headers P) (keep : LineSet)
    (wholeStatements : Bool) : (sealedFirst keep wholeStatements code).Headers P := by
  unfold sealedFirst
  split
  · exact sealBlock_headers code h
  · exact h

theorem firstPass_program (h : t.IsProgram code endMarker) (keep : LineSet) (wholeStatements : Bool) :
    ∃ u count root others,
      (if wholeStatements then statementPass keep t else ⟨t, .ok 0⟩) = (⟨u, .ok count⟩ : Outcome Nat) ∧
        u.Holds (root :: others) ∧ root.id = rootId ∧
        root.shape = fileShape (sealedFirst keep wholeStatements code) endMarker := by
  obtain ⟨root, hid, hshape, hholds⟩ := h.shape
  unfold sealedFirst
  split
  · exact statementPass_file hholds hid hshape h.wf h.fresh
  · exact ⟨t, 0, root, [], rfl, hholds, hid, hshape⟩

theorem collapseUnchanged_program (h : t.IsProgram code endMarker) (ranges : List LineRange)
    (wholeStatements : Bool) :
    ∃ u summary, t.collapseUnchanged ranges wholeStatements = ⟨u, .ok summary⟩ ∧
      u.tokens [rootId] = blockTokens (.ofRanges ranges)
        (sealedFirst (.ofRanges ranges) wholeStatements code) ++ [endMarker] := by
  set keep := LineSet.ofRanges ranges with hkeep
  obtain ⟨v, count, root', others', hpass, hv, hid', hshape'⟩ := firstPass_program h keep wholeStatements
  have hordered : Leaf.Ordered code.tokens := by
    have hall := h.ascending.pairwise
    rw [List.pairwise_append] at hall
    refine hall.1.imp ?_
    intro a b hab _
    exact hab
  have hsealed := (coarsens_sealedFirst h (fun _ => True) keep wholeStatements).ordered hordered
  obtain ⟨u, lines, root'', others'', hlines, hu, hid'', -, htokens⟩ :=
    @linePass_file keep v root' others' hv hid' _ _ hshape' (sealedFirst_wf h.wf _ _) hsealed h.kind
  refine ⟨u, ⟨count, lines⟩, ?_, ?_⟩
  · rw [Tree.collapseUnchanged, ← hkeep, hpass]
    simp only [hlines]
  · rw [hu.tokens_root hid'', htokens]

end Collapse

end LineScope
