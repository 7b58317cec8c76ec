import LineScope.Tree.Basic

/-! What each change of a slot does to parents, children, tokens and symbols. -/
namespace LineScope.Tree

theorem size_alloc (t : Tree) (payload : Payload) : (t.alloc payload).size = t.size + 1 := by
  simp [alloc, size]

theorem size_setParent (t : Tree) (n : NodeId) (parent : Option NodeId) :
    (t.setParent n parent).size = t.size := by
  simp [setParent, size]

theorem size_mapChildren (t : Tree) (n : NodeId) (f : List NodeId → List NodeId) :
    (t.mapChildren n f).size = t.size := by
  simp [mapChildren, size]

theorem size_mapLeaf (t : Tree) (n : NodeId) (f : Leaf → Leaf) :
    (t.mapLeaf n f).size = t.size := by
  simp [mapLeaf, size]

theorem payload?_alloc (t : Tree) (payload : Payload) (m : NodeId) :
    (t.alloc payload).payload? m = if m = t.size then some payload else t.payload? m := by
  by_cases h : m = t.slots.size
  · simp [payload?, alloc, size, h]
  · simp [payload?, alloc, size, Array.getElem?_push, h]

theorem parent?_alloc (t : Tree) (payload : Payload) (m : NodeId) :
    (t.alloc payload).parent? m = t.parent? m := by
  simp only [parent?, alloc, Array.getElem?_push]
  split
  · next h => simp [h]
  · rfl

theorem payload?_setParent (t : Tree) (n : NodeId) (parent : Option NodeId) (m : NodeId) :
    (t.setParent n parent).payload? m = t.payload? m := by
  simp only [payload?, setParent, Array.getElem?_modify]
  split
  · simp [Function.comp_def]
  · rfl

theorem parent?_setParent (t : Tree) (n : NodeId) (parent : Option NodeId) (m : NodeId) :
    (t.setParent n parent).parent? m =
      if n = m then if m < t.size then parent else none else t.parent? m := by
  by_cases h : n = m
  · by_cases hm : m < t.slots.size
    · simp [parent?, setParent, size, h, hm, Array.getElem_modify]
    · simp [parent?, setParent, size, h, hm]
  · simp [parent?, setParent, Array.getElem?_modify, h]

theorem parent?_mapChildren (t : Tree) (n : NodeId) (f : List NodeId → List NodeId) (m : NodeId) :
    (t.mapChildren n f).parent? m = t.parent? m := by
  simp only [parent?, mapChildren, Array.getElem?_modify]
  split
  · cases t.slots[m]? with
    | none => rfl
    | some slot => simp only [Option.map_some, Option.bind_some]; split <;> rfl
  · rfl

theorem leaf?_mapChildren (t : Tree) (n : NodeId) (f : List NodeId → List NodeId) (m : NodeId) :
    (t.mapChildren n f).leaf? m = t.leaf? m := by
  simp only [leaf?, payload?, mapChildren, Array.getElem?_modify]
  by_cases h : n = m
  · rcases t.slots[m]? with _ | ⟨_, _ | _⟩ <;> simp [h]
  · simp [h]

theorem symbol?_mapChildren (t : Tree) (n : NodeId) (f : List NodeId → List NodeId) (m : NodeId) :
    (t.mapChildren n f).symbol? m = t.symbol? m := by
  simp only [symbol?, payload?, mapChildren, Array.getElem?_modify]
  by_cases h : n = m
  · rcases t.slots[m]? with _ | ⟨_, _ | _⟩ <;> simp [h]
  · simp [h]

theorem children_mapChildren (t : Tree) (n : NodeId) (f : List NodeId → List NodeId) (m : NodeId) :
    (t.mapChildren n f).children m =
      if n = m ∧ (t.symbol? m).isSome then f (t.children m) else t.children m := by
  by_cases h : n = m
  · cases hs : t.slots[m]? with
    | none => simp [children, payload?, mapChildren, Array.getElem?_modify, symbol?, h, hs]
    | some slot =>
      rcases slot with ⟨_, _ | _⟩ <;>
        simp [children, payload?, mapChildren, Array.getElem?_modify, symbol?, h, hs]
  · simp [children, payload?, mapChildren, Array.getElem?_modify, h]

theorem parent?_mapLeaf (t : Tree) (n : NodeId) (f : Leaf → Leaf) (m : NodeId) :
    (t.mapLeaf n f).parent? m = t.parent? m := by
  simp only [parent?, mapLeaf, Array.getElem?_modify]
  split
  · cases t.slots[m]? with
    | none => rfl
    | some slot => simp only [Option.map_some, Option.bind_some]; split <;> rfl
  · rfl

theorem children_mapLeaf (t : Tree) (n : NodeId) (f : Leaf → Leaf) (m : NodeId) :
    (t.mapLeaf n f).children m = t.children m := by
  simp only [children, payload?, mapLeaf, Array.getElem?_modify]
  by_cases h : n = m
  · rcases t.slots[m]? with _ | ⟨_, _ | _⟩ <;> simp [h]
  · simp [h]

theorem symbol?_mapLeaf (t : Tree) (n : NodeId) (f : Leaf → Leaf) (m : NodeId) :
    (t.mapLeaf n f).symbol? m = t.symbol? m := by
  simp only [symbol?, payload?, mapLeaf, Array.getElem?_modify]
  by_cases h : n = m
  · rcases t.slots[m]? with _ | ⟨_, _ | _⟩ <;> simp [h]
  · simp [h]

theorem leaf?_mapLeaf (t : Tree) (n : NodeId) (f : Leaf → Leaf) (m : NodeId) :
    (t.mapLeaf n f).leaf? m = if n = m then (t.leaf? m).map f else t.leaf? m := by
  simp only [leaf?, payload?, mapLeaf, Array.getElem?_modify]
  by_cases h : n = m
  · rcases t.slots[m]? with _ | ⟨_, _ | _⟩ <;> simp [h]
  · simp [h]

end LineScope.Tree
