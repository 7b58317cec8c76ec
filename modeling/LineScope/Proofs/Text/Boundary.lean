import LineScope.Text.LineIndex
import Mathlib.Data.List.Basic

/-!
# Offsets between characters

Where a text can be cut, slices of it fit together without gaps.
-/
namespace LineScope.Text

/-- An offset at which one character ends and the next begins. -/
def IsBoundary (cs : List Char) (n : Nat) : Prop :=
  ∃ before after, cs = before ++ after ∧ byteLength before = n

theorem isBoundary_iff {cs : List Char} {n : Nat} : IsBoundary cs n ↔ (splitAt? n cs).isSome := by
  constructor
  · rintro ⟨before, after, rfl, rfl⟩
    rw [splitAt?_byteLength]
    rfl
  · intro h
    obtain ⟨⟨before, after⟩, hsplit⟩ := Option.isSome_iff_exists.mp h
    obtain ⟨hcs, hn⟩ := eq_append_of_splitAt? hsplit
    exact ⟨before, after, hcs, hn.symm⟩

instance (cs : List Char) (n : Nat) : Decidable (IsBoundary cs n) :=
  decidable_of_iff _ isBoundary_iff.symm

theorem isBoundary_zero (cs : List Char) : IsBoundary cs 0 := ⟨[], cs, rfl, rfl⟩

theorem isBoundary_length (cs : List Char) : IsBoundary cs (byteLength cs) :=
  ⟨cs, [], (List.append_nil cs).symm, rfl⟩

theorem IsBoundary.le_length {cs : List Char} {n : Nat} (h : IsBoundary cs n) :
    n ≤ byteLength cs := by
  obtain ⟨before, after, rfl, rfl⟩ := h
  rw [byteLength_append]
  exact Nat.le_add_right _ _

theorem eq_nil_of_byteLength_eq_zero {cs : List Char} (h : byteLength cs = 0) : cs = [] := by
  cases cs with
  | nil => rfl
  | cons c cs =>
    have hc := Char.utf8Size_pos c
    simp only [byteLength] at h
    omega

theorem IsBoundary.exists_between {cs : List Char} {m n : Nat} (hm : IsBoundary cs m)
    (hn : IsBoundary cs n) (hle : m ≤ n) :
    ∃ before mid after, cs = before ++ (mid ++ after) ∧ byteLength before = m ∧
      m + byteLength mid = n := by
  obtain ⟨before, rest, rfl, rfl⟩ := hm
  obtain ⟨before', after, heq, rfl⟩ := hn
  rcases List.append_eq_append_iff.mp heq with ⟨mid, rfl, rfl⟩ | ⟨mid, rfl, rfl⟩
  · exact ⟨before, mid, after, rfl, rfl, (byteLength_append ..).symm⟩
  · rw [byteLength_append] at hle ⊢
    have hnil : mid = [] := eq_nil_of_byteLength_eq_zero (by omega)
    exact ⟨before', [], rest, by simp [hnil], by simp [hnil, byteLength],
      by simp [hnil, byteLength]⟩

theorem slice_between (before mid after : List Char) :
    slice (before ++ (mid ++ after)) (byteLength before) (byteLength before + byteLength mid) =
      mid := by
  rw [slice, slice?, if_pos (Nat.le_add_right _ _), splitAt?_byteLength]
  simp [splitAt?_byteLength]

theorem slice_append {cs : List Char} {l m n : Nat} (hl : IsBoundary cs l) (hm : IsBoundary cs m)
    (hn : IsBoundary cs n) (hlm : l ≤ m) (hmn : m ≤ n) :
    slice cs l m ++ slice cs m n = slice cs l n := by
  obtain ⟨before, mid, after, rfl, rfl, rfl⟩ := hl.exists_between hm hlm
  obtain ⟨before', mid', after', heq, hlength, rfl⟩ := hm.exists_between hn hmn
  have hsplit : before ++ mid = before' ∧ after = mid' ++ after' := by
    have h := splitAt?_byteLength before' (mid' ++ after')
    rw [← heq, hlength, ← byteLength_append, ← List.append_assoc, splitAt?_byteLength] at h
    simpa using h
  obtain ⟨rfl, rfl⟩ := hsplit
  have hfirst := slice_between before mid (mid' ++ after')
  have hsecond := slice_between (before ++ mid) mid' after'
  have hboth := slice_between before (mid ++ mid') after'
  simp only [List.append_assoc, byteLength_append, ← Nat.add_assoc] at hfirst hsecond hboth
  rw [hfirst, hsecond, hboth]

theorem slice_self {cs : List Char} {n : Nat} (hn : IsBoundary cs n) : slice cs n n = [] := by
  obtain ⟨before, after, rfl, rfl⟩ := hn
  simpa [byteLength] using slice_between before [] after

theorem slice_all (cs : List Char) : slice cs 0 (byteLength cs) = cs := by
  simpa [byteLength] using slice_between [] cs []

/-- Where one boundary is known, a text splits there in one way only. -/
theorem append_inj_of_byteLength {before after before' after' : List Char}
    (h : before ++ after = before' ++ after') (hlength : byteLength before = byteLength before') :
    before = before' ∧ after = after' := by
  have hsplit := splitAt?_byteLength before after
  rw [h, hlength, splitAt?_byteLength] at hsplit
  simpa [eq_comm] using hsplit

theorem byteLength_slice {cs : List Char} {m n : Nat} (hm : IsBoundary cs m) (hn : IsBoundary cs n)
    (hle : m ≤ n) : byteLength (slice cs m n) = n - m := by
  obtain ⟨before, mid, after, rfl, rfl, rfl⟩ := hm.exists_between hn hle
  rw [slice_between]
  omega

theorem isBoundary_of_mem_slice {cs : List Char} {m n : Nat} {c : Char} (h : c ∈ slice cs m n) :
    IsBoundary cs m ∧ IsBoundary cs n ∧ m < n := by
  unfold slice slice? at h
  split at h
  · next hle =>
    split at h
    · simp at h
    · next before rest hsplit =>
      obtain ⟨rfl, rfl⟩ := eq_append_of_splitAt? hsplit
      cases hrest : splitAt? (n - byteLength before) rest with
      | none => simp [hrest] at h
      | some cut =>
        simp only [hrest, Option.map_some, Option.getD_some] at h
        obtain ⟨rfl, hlength⟩ := eq_append_of_splitAt? hrest
        have hne : byteLength cut.1 ≠ 0 := fun hzero => by
          rw [eq_nil_of_byteLength_eq_zero hzero] at h
          simp at h
        refine ⟨⟨before, _, rfl, rfl⟩, ⟨before ++ cut.1, cut.2, by simp, ?_⟩, by omega⟩
        rw [byteLength_append]
        omega
  · simp at h

/-- What lies between two offsets lies between offsets further apart. -/
theorem slice_subset {cs : List Char} {l m n k : Nat} (hl : IsBoundary cs l) (hk : IsBoundary cs k)
    (hlm : l ≤ m) (hnk : n ≤ k) : slice cs m n ⊆ slice cs l k := by
  intro c hc
  obtain ⟨hm, hn, hlt⟩ := isBoundary_of_mem_slice hc
  rw [← slice_append hl hm hk hlm (by omega),
    ← slice_append hm hn hk (Nat.le_of_lt hlt) hnk, List.mem_append, List.mem_append]
  exact .inr (.inl hc)

theorem lineFeed?_eq_some {cs : List Char} {n : Nat} (h : lineFeed? cs = some n) :
    ∃ before after, cs = before ++ '\n' :: after ∧ byteLength before = n ∧ '\n' ∉ before := by
  induction cs generalizing n with
  | nil => simp [lineFeed?] at h
  | cons c cs ih =>
    rw [lineFeed?] at h
    split at h
    · next hc => exact ⟨[], cs, by rw [hc]; rfl, Option.some.inj h, by simp⟩
    · next hc =>
      obtain ⟨m, hm, rfl⟩ := Option.map_eq_some_iff.mp h
      obtain ⟨before, after, rfl, rfl, hbefore⟩ := ih hm
      exact ⟨c :: before, after, rfl, rfl, by simp [hbefore, Ne.symm hc]⟩

theorem lineFeed?_eq_none {cs : List Char} (h : lineFeed? cs = none) : '\n' ∉ cs := by
  induction cs with
  | nil => simp
  | cons c cs ih =>
    rw [lineFeed?] at h
    split at h
    · cases h
    · next hc => simp [ih (Option.map_eq_none_iff.mp h), Ne.symm hc]

theorem length_encode (cs : List Char) : (encode cs).length = byteLength cs := by
  induction cs with
  | nil => rfl
  | cons c cs ih =>
    rw [encode, List.flatMap_cons, List.length_append, String.length_utf8EncodeChar, ← encode, ih,
      byteLength]

/-- The last byte of a character is that of a carriage return only for a carriage return. -/
theorem eq_cr_of_getLast? {c : Char} (h : (String.utf8EncodeChar c).getLast? = some 13) :
    c = '\r' := by
  have hcontinuation (v : Nat) : UInt8.ofNat (v % 64 + 128) ≠ 13 := by
    intro hbyte
    have hnat := congrArg UInt8.toNat hbyte
    rw [UInt8.toNat_ofNat'] at hnat
    simp only [Nat.reducePow, UInt8.reduceToNat] at hnat
    omega
  rw [String.utf8EncodeChar] at h
  split at h
  · have hbyte : UInt8.ofNat c.val.toNat = 13 := Option.some.inj h
    have hnat := congrArg UInt8.toNat hbyte
    rw [UInt8.toNat_ofNat', Nat.mod_eq_of_lt (by omega)] at hnat
    exact Char.ext (UInt32.toNat_inj.mp hnat)
  · split at h
    · exact absurd (Option.some.inj h) (hcontinuation _)
    · split at h
      · exact absurd (Option.some.inj h) (hcontinuation _)
      · exact absurd (Option.some.inj h) (hcontinuation _)

/-- A terminator of two bytes starts with a carriage return. -/
theorem eq_cr_of_terminatorLength {before after : List Char} {c : Char}
    (h : terminatorLength (before ++ c :: after) (byteLength before + c.utf8Size - 1) = 2) :
    c = '\r' := by
  have hpos := Char.utf8Size_pos c
  have hbyte : (encode (before ++ c :: after))[byteLength before + c.utf8Size - 1]? = some 13 := by
    unfold terminatorLength at h
    split at h
    · next rest hdrop =>
      rw [← List.head?_drop, hdrop]
      rfl
    · simp at h
    · simp at h
  have hlast : (String.utf8EncodeChar c).getLast? = some 13 := by
    rw [encode, List.flatMap_append, List.flatMap_cons, ← encode, ← encode,
      List.getElem?_append_right (by rw [length_encode]; omega), length_encode,
      List.getElem?_append_left (by rw [String.length_utf8EncodeChar]; omega)] at hbyte
    rw [List.getLast?_eq_getElem?, String.length_utf8EncodeChar, ← hbyte]
    congr 1
    omega
  exact eq_cr_of_getLast? hlast

theorem isBoundary_of_terminatorLength {before after : List Char} {c : Char}
    (h : terminatorLength (before ++ c :: after) (byteLength before + c.utf8Size - 1) = 2) :
    IsBoundary (before ++ c :: after) (byteLength before + c.utf8Size - 1) := by
  obtain rfl := eq_cr_of_terminatorLength h
  exact ⟨before, '\r' :: after, rfl, rfl⟩

end LineScope.Text
