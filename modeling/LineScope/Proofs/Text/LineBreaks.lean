import LineScope.Collapse.Outcome
import Mathlib.Logic.Relation

/-!
# Line breaks

Texts that differ only in carriage returns in front of line feeds, and cutting a line break off the
end of a text.
-/
namespace LineScope

namespace Text

/-- A carriage return in front of a line feed is gone. -/
def Softens (s s' : String) : Prop := ∃ a b, s = a ++ "\r\n" ++ b ∧ s' = a ++ "\n" ++ b

def Softened : String → String → Prop := Relation.ReflTransGen Softens

namespace Softened

variable {a b a' b' s s' s'' : String}

theorem refl (s : String) : Softened s s := Relation.ReflTransGen.refl

theorem of_eq (h : s = s') : Softened s s' := h ▸ refl s

theorem trans (h : Softened s s') (h' : Softened s' s'') : Softened s s'' :=
  Relation.ReflTransGen.trans h h'

theorem append_right (h : Softened a a') (b : String) : Softened (a ++ b) (a' ++ b) := by
  refine Relation.ReflTransGen.lift (· ++ b) ?_ _ _ h
  rintro _ _ ⟨x, y, rfl, rfl⟩
  exact ⟨x, y ++ b, by simp only [String.append_assoc], by simp only [String.append_assoc]⟩

theorem append_left (a : String) (h : Softened b b') : Softened (a ++ b) (a ++ b') := by
  refine Relation.ReflTransGen.lift (a ++ ·) ?_ _ _ h
  rintro _ _ ⟨x, y, rfl, rfl⟩
  exact ⟨a ++ x, y, by simp only [String.append_assoc], by simp only [String.append_assoc]⟩

theorem append (h : Softened a a') (h' : Softened b b') : Softened (a ++ b) (a' ++ b') :=
  (h.append_right b).trans (append_left a' h')

/-- Where no carriage return stands in front of a line feed, nothing is gone. -/
theorem eq_of_forall_ne (h : Softened s s') (hs : ∀ a b, s ≠ a ++ "\r\n" ++ b) : s' = s := by
  rcases Relation.ReflTransGen.cases_head h with heq | ⟨x, ⟨a, b, heq, -⟩, -⟩
  · exact heq.symm
  · exact absurd heq (hs a b)

end Softened

def feeds (k : Nat) : String := String.ofList (List.replicate k '\n')

@[simp] theorem feeds_zero : feeds 0 = "" := rfl

@[simp] theorem feeds_one : feeds 1 = "\n" := rfl

theorem feeds_add (j k : Nat) : feeds (j + k) = feeds j ++ feeds k := by
  rw [feeds, ← List.replicate_append_replicate, String.ofList_append]
  rfl

theorem feeds_comm (j k : Nat) : feeds j ++ feeds k = feeds k ++ feeds j := by
  rw [← feeds_add, ← feeds_add, Nat.add_comm]

def Breaks (s : String) : Prop := ∃ a, s = a ++ "\n"

theorem breaks_append {s : String} (a : String) (h : Breaks s) : Breaks (a ++ s) := by
  obtain ⟨b, rfl⟩ := h
  exact ⟨a ++ b, String.append_assoc.symm⟩

theorem breaks_iff (s : String) : Breaks s ↔ s.toList.getLast? = some '\n' := by
  rw [List.getLast?_eq_some_iff]
  constructor
  · rintro ⟨a, rfl⟩
    exact ⟨a.toList, String.toList_append⟩
  · rintro ⟨cs, hcs⟩
    refine ⟨String.ofList cs, String.toList_inj.mp ?_⟩
    rw [hcs, String.toList_append, String.toList_ofList]
    rfl

instance (s : String) : Decidable (Breaks s) := decidable_of_iff _ (breaks_iff s).symm

/-- The end of a text is that of its last part that is not empty. -/
theorem not_breaks_append (a : String) {s : String} (hne : s ≠ "") (h : ¬Breaks s) :
    ¬Breaks (a ++ s) := by
  rw [breaks_iff] at h ⊢
  obtain ⟨c, hc⟩ := Option.isSome_iff_exists.mp (List.getLast?_isSome.mpr fun hnil =>
    hne (String.toList_eq_nil_iff.mp hnil))
  rw [String.toList_append, List.getLast?_append, hc]
  rwa [hc] at h

end Text

namespace Collapse

open Text

theorem dropTerminator_cases (cs : List Char) :
    cs = '\n' :: '\r' :: dropTerminator cs ∨ cs = '\n' :: dropTerminator cs ∨
      (cs.head? ≠ some '\n' ∧ dropTerminator cs = cs) := by
  unfold dropTerminator
  split
  · exact .inl rfl
  · exact .inr (.inl rfl)
  · next hcrlf hlf =>
    refine .inr (.inr ⟨fun h => ?_, rfl⟩)
    obtain ⟨rest, rfl⟩ := List.head?_eq_some_iff.mp h
    exact hlf rest rfl

theorem stripTerminator_cases (s : String) :
    s = stripTerminator s ++ "\r\n" ∨ s = stripTerminator s ++ "\n" ∨
      (¬Breaks s ∧ stripTerminator s = s) := by
  have hback {cs : List Char} (h : s.toList.reverse = cs) : s = String.ofList cs.reverse := by
    rw [← h, List.reverse_reverse, String.ofList_toList]
  have hstrip : stripTerminator s = String.ofList (dropTerminator s.toList.reverse).reverse := rfl
  rcases dropTerminator_cases s.toList.reverse with h | h | ⟨h, heq⟩
  · refine .inl ((hback h).trans ?_)
    rw [hstrip, List.reverse_cons, List.reverse_cons, List.append_assoc, String.ofList_append]
    rfl
  · refine .inr (.inl ((hback h).trans ?_))
    rw [hstrip, List.reverse_cons, String.ofList_append]
  · refine .inr (.inr ⟨?_, ?_⟩)
    · rwa [breaks_iff, ← List.head?_reverse]
    · rw [hstrip, heq, ← hback rfl]

theorem softened_stripTerminator {s : String} (h : Breaks s) :
    Softened s (stripTerminator s ++ "\n") := by
  rcases stripTerminator_cases s with heq | heq | ⟨hnot, -⟩
  · exact .single ⟨stripTerminator s, "", by simpa using heq, by simp⟩
  · exact .of_eq heq
  · exact absurd h hnot

theorem stripTerminator_of_not_breaks {s : String} (h : ¬Breaks s) : stripTerminator s = s := by
  rcases stripTerminator_cases s with heq | heq | ⟨-, hsame⟩
  · refine absurd ⟨stripTerminator s ++ "\r", heq.trans ?_⟩ h
    rw [String.append_assoc]
    rfl
  · exact absurd ⟨stripTerminator s, heq⟩ h
  · exact hsame

theorem stripTerminator_feeds (k : Nat) : stripTerminator (feeds k) = feeds (k - 1) := by
  cases k with
  | zero => rfl
  | succ k =>
    have hdrop : dropTerminator (List.replicate (k + 1) '\n') = List.replicate k '\n' := by
      cases k <;> rfl
    rw [stripTerminator, feeds, String.toList_ofList, List.reverse_replicate, hdrop,
      List.reverse_replicate]
    rfl

end Collapse

end LineScope
