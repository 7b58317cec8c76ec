import LineScope.Tree.Leaf
import Mathlib.Algebra.GroupWithZero.Nat
import Mathlib.Data.List.Basic

/-!
# Lines of leaves

A leaf with a text of its own starts on the line that follows from the line feeds in front of it.
The marks of indentation have no text: a dedent goes by the leaf with text that was there last.
-/
namespace LineScope

open Text

def TokenKind.isMark : TokenKind → Bool
  | .indent | .dedent => true
  | _ => false

theorem TokenKind.isMark_iff {kind : TokenKind} :
    kind.isMark = true ↔ kind = .indent ∨ kind = .dedent := by
  cases kind <;> simp [isMark]

def TokenKind.isLayout : TokenKind → Bool
  | .newline | .indent | .dedent | .endMarker => true
  | _ => false

namespace Leaf

def TokenFirst (leaves : List Leaf) : Prop := ∀ leaf ∈ leaves.head?, leaf.kind.isLayout = false

def feedCount (leaves : List Leaf) : Nat :=
  (leaves.map fun leaf => lineFeeds leaf.trivia.toList + lineFeeds leaf.value.toList).sum

def lastWord? (leaves : List Leaf) : Option Leaf :=
  (leaves.filter fun leaf => !leaf.kind.isMark).getLast?

/-- Leaves from line `start` on that stand on the lines of their texts. -/
structure LinesTrue (start : Nat) (leaves : List Leaf) : Prop where
  word : ∀ before leaf after, leaves = before ++ leaf :: after → leaf.kind.isMark = false →
    leaf.line = start + feedCount before + lineFeeds leaf.trivia.toList
  dedent : ∀ before leaf after, leaves = before ++ leaf :: after → leaf.kind = .dedent →
    ∃ last, lastWord? before = some last ∧ leaf.line = last.endLine

variable {start : Nat} {leaf : Leaf} {leaves more : List Leaf}

theorem TokenFirst.append (h : TokenFirst leaves) (hmore : TokenFirst more) :
    TokenFirst (leaves ++ more) := by
  cases leaves with
  | nil => exact hmore
  | cons leaf rest => exact h

theorem TokenFirst.append_right (h : TokenFirst leaves) (hne : leaves ≠ [])
    (more : List Leaf) : TokenFirst (leaves ++ more) := by
  cases leaves with
  | nil => exact absurd rfl hne
  | cons leaf rest => exact h

@[simp] theorem feedCount_nil : feedCount [] = 0 := rfl

@[simp] theorem feedCount_cons : feedCount (leaf :: leaves) =
    lineFeeds leaf.trivia.toList + lineFeeds leaf.value.toList + feedCount leaves := rfl

@[simp] theorem feedCount_append : feedCount (leaves ++ more) = feedCount leaves + feedCount more := by
  simp [feedCount]

theorem lastWord?_append (leaves more : List Leaf) :
    lastWord? (leaves ++ more) = (lastWord? more).or (lastWord? leaves) := by
  rw [lastWord?, List.filter_append, List.getLast?_append]
  rfl

theorem lastWord?_word (h : leaf.kind.isMark = false) : lastWord? [leaf] = some leaf := by
  simp [lastWord?, h]

theorem lastWord?_mark (h : leaf.kind.isMark = true) : lastWord? [leaf] = none := by
  simp [lastWord?, h]

theorem linesTrue_iff : LinesTrue start leaves ↔ ∀ i : Fin leaves.length,
    (leaves[i].kind.isMark = false →
      leaves[i].line = start + feedCount (leaves.take i) + lineFeeds leaves[i].trivia.toList) ∧
    (leaves[i].kind = .dedent →
      (lastWord? (leaves.take i)).map endLine = some leaves[i].line) := by
  constructor
  · intro h i
    have hsplit : leaves = leaves.take i ++ leaves[i] :: leaves.drop (i + 1) := by simp
    refine ⟨h.word _ _ _ hsplit, fun hkind => ?_⟩
    obtain ⟨last, hlast, hline⟩ := h.dedent _ _ _ hsplit hkind
    rw [hlast, hline, Option.map_some]
  · intro h
    constructor
    · rintro before leaf after rfl hword
      simpa using (h ⟨before.length, by simp⟩).1 (by simpa using hword)
    · rintro before leaf after rfl hkind
      have hlast := (h ⟨before.length, by simp⟩).2 (by simpa using hkind)
      obtain ⟨last, hword, hline⟩ := Option.map_eq_some_iff.mp hlast
      exact ⟨last, by simpa using hword, by simpa using hline.symm⟩

instance : Decidable (LinesTrue start leaves) := decidable_of_iff _ linesTrue_iff.symm

theorem LinesTrue.nil : LinesTrue start [] := by
  constructor <;> simp

theorem LinesTrue.append (h : LinesTrue start leaves)
    (hmore : LinesTrue (start + feedCount leaves) more) : LinesTrue start (leaves ++ more) := by
  have hsplit {before after : List Leaf} {x : Leaf} (heq : leaves ++ more = before ++ x :: after) :
      (∃ rest, leaves = before ++ x :: rest) ∨
        ∃ front, before = leaves ++ front ∧ more = front ++ x :: after := by
    rcases List.append_eq_append_iff.mp heq with ⟨front, hbefore, hmore⟩ | ⟨rest, hleaves, hrest⟩
    · exact .inr ⟨front, hbefore, hmore⟩
    · cases rest with
      | nil => exact .inr ⟨[], by simpa using hleaves.symm, by simpa using hrest.symm⟩
      | cons y rest =>
        rw [List.cons_append, List.cons.injEq] at hrest
        exact .inl ⟨rest, by rw [hleaves, ← hrest.1]⟩
  constructor
  · intro before x after heq hword
    rcases hsplit heq with ⟨rest, hleaves⟩ | ⟨front, rfl, hfront⟩
    · exact h.word before x rest hleaves hword
    · rw [hmore.word front x after hfront hword, feedCount_append, Nat.add_assoc start]
  · intro before x after heq hdedent
    rcases hsplit heq with ⟨rest, hleaves⟩ | ⟨front, rfl, hfront⟩
    · exact h.dedent before x rest hleaves hdedent
    · obtain ⟨last, hlast, hline⟩ := hmore.dedent front x after hfront hdedent
      exact ⟨last, by rw [lastWord?_append, hlast, Option.some_or], hline⟩

theorem linesTrue_singleton (hdedent : leaf.kind ≠ .dedent)
    (hword : leaf.kind.isMark = false → leaf.line = start + lineFeeds leaf.trivia.toList) :
    LinesTrue start [leaf] := by
  constructor
  · intro before x after heq hx
    obtain ⟨rfl, hcons⟩ := List.append_eq_singleton_iff.mp heq.symm |>.resolve_right (by simp)
    obtain ⟨rfl, -⟩ := List.cons.inj hcons
    simpa using hword hx
  · intro before x after heq hx
    obtain ⟨rfl, hcons⟩ := List.append_eq_singleton_iff.mp heq.symm |>.resolve_right (by simp)
    obtain ⟨rfl, -⟩ := List.cons.inj hcons
    exact absurd hx hdedent

theorem LinesTrue.dedented (h : LinesTrue start leaves) {last : Leaf}
    (hlast : lastWord? leaves = some last) (hdedent : leaf.kind = .dedent)
    (hline : leaf.line = last.endLine) : LinesTrue start (leaves ++ [leaf]) := by
  have hcases {before after : List Leaf} {x : Leaf} (heq : leaves ++ [leaf] = before ++ x :: after) :
      (∃ rest, leaves = before ++ x :: rest) ∨ before = leaves ∧ x = leaf := by
    rcases List.eq_nil_or_concat after with rfl | ⟨rest, y, rfl⟩
    · obtain ⟨hbefore, hx⟩ := List.append_inj' heq rfl
      exact .inr ⟨hbefore.symm, (List.cons.inj hx).1.symm⟩
    · rw [List.concat_eq_append, ← List.cons_append, ← List.append_assoc] at heq
      exact .inl ⟨rest, (List.append_inj' heq rfl).1⟩
  constructor
  · intro before x after heq hx
    rcases hcases heq with ⟨rest, hleaves⟩ | ⟨rfl, rfl⟩
    · exact h.word before x rest hleaves hx
    · rw [hdedent] at hx
      cases hx
  · intro before x after heq hx
    rcases hcases heq with ⟨rest, hleaves⟩ | ⟨rfl, rfl⟩
    · exact h.dedent before x rest hleaves hx
    · exact ⟨last, hlast, hline⟩

end Leaf

end LineScope
