/-! UTF-8 offsets into texts. Offsets count bytes; a text can only be cut between characters. -/
namespace LineScope.Text

def encode (cs : List Char) : List UInt8 := cs.flatMap String.utf8EncodeChar

def byteLength : List Char → Nat
  | [] => 0
  | c :: cs => c.utf8Size + byteLength cs

/-- Cuts after `n` bytes; `none` inside a character and past the end. -/
def splitAt? : Nat → List Char → Option (List Char × List Char)
  | 0, cs => some ([], cs)
  | _ + 1, [] => none
  | n + 1, c :: cs =>
    if c.utf8Size ≤ n + 1 then
      (splitAt? (n + 1 - c.utf8Size) cs).map fun (before, after) => (c :: before, after)
    else none

/-- The characters between two offsets; `none` unless both lie between characters, in order. -/
def slice? (cs : List Char) (start stop : Nat) : Option (List Char) :=
  if start ≤ stop then
    match splitAt? start cs with
    | none => none
    | some (_, rest) => (splitAt? (stop - start) rest).map Prod.fst
  else none

/-- The characters between two offsets, nothing where the text cannot be cut. -/
def slice (cs : List Char) (start stop : Nat) : List Char := (slice? cs start stop).getD []

def lineFeed? : List Char → Option Nat
  | [] => none
  | c :: cs => if c = '\n' then some 0 else (lineFeed? cs).map (c.utf8Size + ·)

def lineFeeds (cs : List Char) : Nat := cs.count '\n'

theorem byteLength_append (cs ds : List Char) :
    byteLength (cs ++ ds) = byteLength cs + byteLength ds := by
  induction cs with
  | nil => simp [byteLength]
  | cons c cs ih => simp [byteLength, ih, Nat.add_assoc]

/-- A text can be cut where one part of it ends and the next begins. -/
theorem splitAt?_byteLength (cs ds : List Char) :
    splitAt? (byteLength cs) (cs ++ ds) = some (cs, ds) := by
  induction cs with
  | nil => simp [byteLength, splitAt?]
  | cons c cs ih =>
    have hc := Char.utf8Size_pos c
    obtain ⟨n, hn⟩ : ∃ n, byteLength (c :: cs) = n + 1 := ⟨byteLength (c :: cs) - 1, by
      simp only [byteLength]; omega⟩
    have hrest : n + 1 - c.utf8Size = byteLength cs := by simp only [byteLength] at hn; omega
    have hle : c.utf8Size ≤ n + 1 := by simp only [byteLength] at hn; omega
    simp [hn, splitAt?, hle, hrest, ih]

/-- Cutting loses nothing. -/
theorem eq_append_of_splitAt? {n : Nat} {cs before after : List Char}
    (h : splitAt? n cs = some (before, after)) : cs = before ++ after ∧ n = byteLength before := by
  induction n, cs using splitAt?.induct generalizing before after with
  | case1 cs => simp_all [splitAt?, byteLength]
  | case2 n => simp [splitAt?] at h
  | case3 n c cs hle ih =>
    simp only [splitAt?, hle, if_true, Option.map_eq_some_iff] at h
    obtain ⟨⟨before', after'⟩, h, heq⟩ := h
    obtain ⟨rfl, rfl⟩ := Prod.mk.inj heq
    obtain ⟨rfl, hn⟩ := ih h
    exact ⟨rfl, by simp only [byteLength]; omega⟩
  | case4 n c cs hlt => simp [splitAt?, hlt] at h

end LineScope.Text
