import LineScope.Proofs.Text.Boundary
import Mathlib.Data.List.Count

/-!
# Line numbers

Bisection in an ascending table counts the entries that do not exceed a number, so the line of an
offset is one more than the number of line feeds before it. The table of line starts has no number
twice, and so a search for an offset tells its line as well: the entries up to the place where it
stands, or those before the place where it would have to go.
-/
namespace LineScope.Text

/-- Bisection stops between the entries that do not exceed `x` and those that do. -/
theorem bisect_spec {table : Array Nat} (hsorted : table.toList.Pairwise (· ≤ ·)) {x lo hi : Nat}
    (h : hi ≤ table.size) (hle : lo ≤ hi)
    (hlow : ∀ i (hsize : i < table.size), i < lo → table[i] ≤ x)
    (hhigh : ∀ i (hsize : i < table.size), hi ≤ i → x < table[i]) :
    bisect table x lo hi h ≤ table.size ∧
      ∀ i (hsize : i < table.size), table[i] ≤ x ↔ i < bisect table x lo hi h := by
  have hmono (i j : Nat) (hi : i < table.size) (hj : j < table.size) (hij : i < j) :
      table[i] ≤ table[j] := List.pairwise_iff_getElem.mp hsorted i j hi hj hij
  induction lo, hi, h using bisect.induct table x with
  | case1 lo hi h hlt mid hmid ih =>
    rw [bisect, dif_pos hlt, if_pos hmid]
    refine ih (by omega) (fun i hsize hi => ?_) hhigh
    rcases Nat.lt_or_eq_of_le (show i ≤ mid by omega) with hi | rfl
    · exact Nat.le_trans (hmono i mid hsize (by omega) hi) hmid
    · exact hmid
  | case2 lo hi h hlt mid hmid ih =>
    rw [bisect, dif_pos hlt, if_neg hmid]
    refine ih (by omega) hlow fun i hsize hi => ?_
    rcases Nat.lt_or_eq_of_le hi with hi | rfl
    · exact Nat.lt_of_lt_of_le (Nat.lt_of_not_le hmid) (hmono mid i (by omega) hsize hi)
    · exact Nat.lt_of_not_le hmid
  | case3 lo hi h hlt =>
    rw [bisect, dif_neg hlt]
    refine ⟨by omega, fun i hsize => ⟨fun hle => ?_, hlow i hsize⟩⟩
    by_contra hlo
    exact absurd hle (Nat.not_le.mpr (hhigh i hsize (by omega)))

/-- Where a list is cut between the entries that do not exceed `x` and those that do, the length of
the first part is their number. -/
theorem countP_of_cut {xs : List Nat} {x i : Nat} (hi : i ≤ xs.length)
    (hlow : ∀ y ∈ xs.take i, y ≤ x) (hhigh : ∀ y ∈ xs.drop i, x < y) :
    xs.countP (· ≤ x) = i := by
  have hall : (xs.take i).countP (· ≤ x) = (xs.take i).length :=
    List.countP_eq_length.mpr fun y hy => decide_eq_true (hlow y hy)
  have hnone : (xs.drop i).countP (· ≤ x) = 0 :=
    List.countP_eq_zero.mpr fun y hy => by simpa using hhigh y hy
  rw [← List.take_append_drop i xs, List.countP_append, hall, hnone, List.length_take]
  omega

theorem countUpTo_eq {table : Array Nat} (hsorted : table.toList.Pairwise (· ≤ ·)) (x : Nat) :
    countUpTo table x = table.toList.countP (· ≤ x) := by
  obtain ⟨hle, hspec⟩ := @bisect_spec table hsorted x 0 table.size (Nat.le_refl _) (Nat.zero_le _)
    (fun i _ h => absurd h (Nat.not_lt_zero i)) fun i hsize h => absurd hsize (Nat.not_lt.mpr h)
  rw [countUpTo]
  generalize bisect table x 0 table.size (Nat.le_refl _) = r at hle hspec
  refine (countP_of_cut hle (fun y hy => ?_) fun y hy => ?_).symm
  · obtain ⟨i, hi, rfl⟩ := List.mem_take_iff_getElem.mp hy
    simp only [Array.length_toList, Nat.lt_min] at hi
    simpa using (hspec i hi.2).mpr hi.1
  · obtain ⟨i, hi, rfl⟩ := List.mem_drop_iff_getElem.mp hy
    simp only [Array.length_toList] at hi
    simpa using mt (hspec (r + i) (by omega)).mp (by omega)

/-- A number that stands in a table has the entries up to its place not exceeding it. -/
theorem countUpTo_of_getElem? {table : Array Nat} (hsorted : table.toList.Pairwise (· < ·))
    {x i : Nat} (hx : table.toList[i]? = some x) : countUpTo table x = i + 1 := by
  obtain ⟨hi, rfl⟩ := List.getElem?_eq_some_iff.mp hx
  have hmono := List.pairwise_iff_getElem.mp hsorted
  rw [countUpTo_eq (hsorted.imp Nat.le_of_lt)]
  refine countP_of_cut hi (fun y hy => ?_) fun y hy => ?_
  · obtain ⟨j, hj, rfl⟩ := List.mem_take_iff_getElem.mp hy
    rcases Nat.lt_or_eq_of_le (show j ≤ i by omega) with hji | rfl
    · exact Nat.le_of_lt (hmono j i (by omega) hi hji)
    · exact Nat.le_refl _
  · obtain ⟨j, hj, rfl⟩ := List.mem_drop_iff_getElem.mp hy
    exact hmono i (i + 1 + j) hi (by omega) (by omega)

/-- A number that does not stand in a table has the entries before the place where it would have to
go not exceeding it. -/
theorem countUpTo_of_gap {table : Array Nat} (hsorted : table.toList.Pairwise (· < ·)) {x i : Nat}
    (hi : i ≤ table.toList.length) (hlow : ∀ y ∈ table.toList.take i, y < x)
    (hhigh : ∀ y ∈ table.toList.drop i, x < y) : countUpTo table x = i := by
  rw [countUpTo_eq (hsorted.imp Nat.le_of_lt)]
  exact countP_of_cut hi (fun y hy => Nat.le_of_lt (hlow y hy)) hhigh

theorem lt_of_mem_startsAfter {offset : Nat} {bs : List UInt8} {n : Nat}
    (h : n ∈ startsAfter offset bs) : offset < n := by
  induction bs generalizing offset with
  | nil => simp [startsAfter] at h
  | cons b bs ih =>
    rw [startsAfter] at h
    split at h
    · rcases List.mem_cons.mp h with rfl | h
      · omega
      · have := ih h
        omega
    · have := ih h
      omega

theorem pairwise_startsAfter (offset : Nat) (bs : List UInt8) :
    (startsAfter offset bs).Pairwise (· < ·) := by
  induction bs generalizing offset with
  | nil => simp [startsAfter]
  | cons b bs ih =>
    rw [startsAfter]
    split
    · exact List.pairwise_cons.mpr ⟨fun n hn => lt_of_mem_startsAfter hn, ih _⟩
    · exact ih _

/-- The starts of the lines go up, so no line starts twice. -/
theorem pairwise_starts (cs : List Char) :
    (LineIndex.ofText cs).starts.toList.Pairwise (· < ·) :=
  List.pairwise_cons.mpr ⟨fun _ hn => lt_of_mem_startsAfter hn, pairwise_startsAfter _ _⟩

/-- The lines that start by an offset are those of the line feeds before it. -/
theorem countP_startsAfter (n offset : Nat) (bs : List UInt8) :
    (startsAfter offset bs).countP (· ≤ offset + n) = (bs.take n).count 10 := by
  induction bs generalizing n offset with
  | nil => simp [startsAfter]
  | cons b bs ih =>
    cases n with
    | zero =>
      rw [List.take_zero, List.count_nil, List.countP_eq_zero]
      intro m hm
      have := lt_of_mem_startsAfter hm
      simp only [decide_eq_true_eq]
      omega
    | succ n =>
      have hrest : (startsAfter (offset + 1) bs).countP (· ≤ offset + (n + 1)) =
          (bs.take n).count 10 := by
        rw [← ih n (offset + 1)]
        congr 2
        funext m
        congr 1
        exact propext (by omega)
      rw [startsAfter, List.take_succ_cons, List.count_cons]
      split
      · next hb => simp [hb, hrest]
      · next hb => simp [hb, hrest]

theorem lineOf_eq (cs : List Char) (n : Nat) :
    (LineIndex.ofText cs).lineOf n = ((encode cs).take n).count 10 + 1 := by
  rw [LineIndex.lineOf, countUpTo_eq ((pairwise_starts cs).imp Nat.le_of_lt), LineIndex.ofText]
  have hcount := countP_startsAfter n 0 (encode cs)
  rw [Nat.zero_add] at hcount
  simp [hcount]

theorem lineOf_mono (cs : List Char) {m n : Nat} (h : m ≤ n) :
    (LineIndex.ofText cs).lineOf m ≤ (LineIndex.ofText cs).lineOf n := by
  rw [lineOf_eq, lineOf_eq]
  have hle := (List.take_sublist_take_left h : ((encode cs).take m).Sublist _).count_le 10
  omega

/-- The line goes up right behind a line feed and nowhere else. -/
theorem lineOf_succ (cs : List Char) (n : Nat) :
    (LineIndex.ofText cs).lineOf (n + 1) =
      (LineIndex.ofText cs).lineOf n + if (encode cs)[n]? = some 10 then 1 else 0 := by
  rw [lineOf_eq, lineOf_eq, List.take_add_one, List.count_append]
  cases (encode cs)[n]? with
  | none => simp
  | some b =>
    rw [Option.toList_some, List.count_singleton]
    simp only [Option.some.injEq, beq_iff_eq]
    omega

/-- Offsets with no line feed from one to the other are on one line. -/
theorem lineOf_eq_of_not_mem {cs : List Char} {m n : Nat} (hle : m ≤ n)
    (hfree : 10 ∉ ((encode cs).take n).drop m) :
    (LineIndex.ofText cs).lineOf m = (LineIndex.ofText cs).lineOf n := by
  have hcut : (encode cs).take n = (encode cs).take m ++ ((encode cs).take n).drop m := by
    conv_lhs => rw [← List.take_append_drop m ((encode cs).take n), List.take_take,
      Nat.min_eq_left hle]
  rw [lineOf_eq, lineOf_eq, hcut, List.count_append, List.count_eq_zero_of_not_mem hfree,
    Nat.add_zero]

theorem count_utf8EncodeChar (c : Char) :
    (String.utf8EncodeChar c).count 10 = if c = '\n' then 1 else 0 := by
  have hlarge {v : Nat} (hv : v % 256 ≠ 10) : UInt8.ofNat v ≠ 10 := by
    intro hbyte
    have hnat := congrArg UInt8.toNat hbyte
    rw [UInt8.toNat_ofNat'] at hnat
    exact hv hnat
  have hline : c.val.toNat = 10 ↔ c = '\n' :=
    ⟨fun hval => Char.ext (UInt32.toNat_inj.mp hval), fun hc => by rw [hc]; rfl⟩
  rw [String.utf8EncodeChar]
  split
  · next hsmall =>
    rw [List.count_singleton]
    by_cases hc : c = '\n'
    · simp [hc]
    · rw [if_neg hc, if_neg]
      have hval := mt hline.mp hc
      simpa using @hlarge c.val.toNat (by omega)
  · next hbig =>
    rw [if_neg (mt hline.mpr (by omega)), List.count_eq_zero]
    split
    · simp only [List.mem_cons, List.not_mem_nil, or_false, not_or]
      exact ⟨(hlarge (by omega)).symm, (hlarge (by omega)).symm⟩
    · split
      · simp only [List.mem_cons, List.not_mem_nil, or_false, not_or]
        exact ⟨(hlarge (by omega)).symm, (hlarge (by omega)).symm, (hlarge (by omega)).symm⟩
      · simp only [List.mem_cons, List.not_mem_nil, or_false, not_or]
        exact ⟨(hlarge (by omega)).symm, (hlarge (by omega)).symm, (hlarge (by omega)).symm,
          (hlarge (by omega)).symm⟩

theorem count_encode (cs : List Char) : (encode cs).count 10 = lineFeeds cs := by
  induction cs with
  | nil => rfl
  | cons c cs ih =>
    rw [encode, List.flatMap_cons, List.count_append, ← encode, ih, count_utf8EncodeChar, lineFeeds,
      lineFeeds, List.count_cons, Nat.add_comm]
    simp

theorem lineOf_byteLength (before after : List Char) :
    (LineIndex.ofText (before ++ after)).lineOf (byteLength before) = lineFeeds before + 1 := by
  rw [lineOf_eq, encode, List.flatMap_append, ← encode, ← encode, List.take_left' (length_encode _),
    count_encode]

/-- The last byte of a character other than a line feed is on the line that goes on behind it. -/
theorem lineOf_sub_one {before after : List Char} {c : Char} (hc : c ≠ '\n') :
    (LineIndex.ofText (before ++ c :: after)).lineOf (byteLength (before ++ [c]) - 1) =
      (LineIndex.ofText (before ++ c :: after)).lineOf (byteLength (before ++ [c])) := by
  have hfree : (String.utf8EncodeChar c).count 10 = 0 := by rw [count_utf8EncodeChar, if_neg hc]
  have hsize := Char.utf8Size_pos c
  have hlength : byteLength (before ++ [c]) = byteLength before + c.utf8Size := by
    simp [byteLength_append, byteLength]
  have hencode : encode (before ++ c :: after) =
      encode before ++ (String.utf8EncodeChar c ++ encode after) := by
    simp [encode]
  have htake {k : Nat} (hk : k ≤ c.utf8Size) :
      ((encode before ++ (String.utf8EncodeChar c ++ encode after)).take
        (byteLength before + k)).count 10 = (encode before).count 10 := by
    rw [← length_encode before, List.take_length_add_append, List.count_append,
      List.take_append_of_le_length (by rwa [String.length_utf8EncodeChar])]
    have hle := (List.take_sublist k (String.utf8EncodeChar c)).count_le 10
    omega
  rw [lineOf_eq, lineOf_eq, hencode, hlength, htake (Nat.le_refl _), Nat.add_sub_assoc hsize,
    htake (Nat.sub_le _ _)]

theorem lineOf_add {cs : List Char} {m n : Nat} (hm : IsBoundary cs m) (hn : IsBoundary cs n)
    (hle : m ≤ n) : (LineIndex.ofText cs).lineOf n =
      (LineIndex.ofText cs).lineOf m + lineFeeds (slice cs m n) := by
  obtain ⟨before, mid, after, rfl, rfl, rfl⟩ := hm.exists_between hn hle
  rw [slice_between, lineOf_byteLength, ← byteLength_append, ← List.append_assoc, lineOf_byteLength,
    lineFeeds, lineFeeds, lineFeeds, List.count_append]
  omega

/-- The line of an offset, in the text or past its end, is one more than the number of line feeds
among the bytes before it. It is what a search in the table of line starts tells, whether the offset
stands there or not; it never goes down, and a line feed is on the line that it ends. -/
theorem lineOf_counts (cs : List Char) (offset : Nat) :
    (LineIndex.ofText cs).lineOf offset =
        1 + ((encode cs).take (min offset (encode cs).length)).count 10 ∧
      (∀ i, (LineIndex.ofText cs).starts.toList[i]? = some offset →
        (LineIndex.ofText cs).lineOf offset = i + 1) ∧
      (∀ i ≤ (LineIndex.ofText cs).starts.toList.length,
        (∀ start ∈ (LineIndex.ofText cs).starts.toList.take i, start < offset) →
        (∀ start ∈ (LineIndex.ofText cs).starts.toList.drop i, offset < start) →
          (LineIndex.ofText cs).lineOf offset = i) ∧
      (∀ later, offset ≤ later →
        (LineIndex.ofText cs).lineOf offset ≤ (LineIndex.ofText cs).lineOf later) ∧
      ((encode cs)[offset]? = some 10 →
        (LineIndex.ofText cs).lineOf (offset + 1) = (LineIndex.ofText cs).lineOf offset + 1 ∧
          ∀ start ≤ offset, 10 ∉ ((encode cs).take offset).drop start →
            (LineIndex.ofText cs).lineOf start = (LineIndex.ofText cs).lineOf offset) := by
  refine ⟨?_, fun i => countUpTo_of_getElem? (pairwise_starts cs),
    fun i => countUpTo_of_gap (pairwise_starts cs), fun later => lineOf_mono cs, fun hfeed => ?_⟩
  · rw [lineOf_eq, ← List.take_eq_take_min, Nat.add_comm]
  · have hnext : (LineIndex.ofText cs).lineOf (offset + 1) =
        (LineIndex.ofText cs).lineOf offset + 1 := by
      rw [lineOf_succ, if_pos hfeed]
    exact ⟨hnext, fun start hle hfree => lineOf_eq_of_not_mem hle hfree⟩

/-- A letter of two bytes, an empty line, and a last line that no line feed ends. -/
def wideLines : List Char := "é\n\nb".toList

/-- Inside the letter, at a line feed where a line starts, and past the end. -/
theorem wideLines_counts :
    (LineIndex.ofText wideLines).lineOf 1 = 1 ∧ (LineIndex.ofText wideLines).lineOf 3 = 2 ∧
      (LineIndex.ofText wideLines).lineOf 9 = 3 ∧
      (LineIndex.ofText wideLines).lineOf 3 ≤ (LineIndex.ofText wideLines).lineOf 9 ∧
      (LineIndex.ofText wideLines).lineOf 3 = (LineIndex.ofText wideLines).lineOf 2 + 1 ∧
      (LineIndex.ofText wideLines).lineOf 1 = (LineIndex.ofText wideLines).lineOf 2 := by
  obtain ⟨hcount, -⟩ := lineOf_counts wideLines 1
  obtain ⟨-, -, -, -, hfeed⟩ := lineOf_counts wideLines 2
  obtain ⟨-, hfound, -, hmono, -⟩ := lineOf_counts wideLines 3
  obtain ⟨-, -, hgap, -⟩ := lineOf_counts wideLines 9
  obtain ⟨hnext, hsame⟩ := hfeed (by decide +kernel)
  exact ⟨hcount.trans (by decide +kernel), hfound 1 (by decide +kernel),
    hgap 3 (by decide +kernel) (by decide +kernel) (by decide +kernel), hmono 9 (by omega), hnext,
    hsame 1 (by omega) (by decide +kernel)⟩

end LineScope.Text
