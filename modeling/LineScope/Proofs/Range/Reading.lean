import LineScope.Range.Parser
import Mathlib.Data.List.Induction
import Mathlib.Data.List.TakeWhile
import Mathlib.Data.Nat.Digits.Defs

/-!
# Reading and writing ranges

The text of a range is two numerals with a dash between them. A blank is no digit and the dash is
neither, so there is one way to cut such a text, and taking as many digits and blanks as there are
finds it. Written numerals are read as the numbers they were written for.
-/
namespace LineScope

namespace LineRange

/-- At least one digit, and nothing else. -/
structure IsNumeral (cs : List Char) : Prop where
  nonempty : cs ≠ []
  digits : ∀ c ∈ cs, '0' ≤ c ∧ c ≤ '9'

def IsPadding (cs : List Char) : Prop := ∀ c ∈ cs, c = ' ' ∨ c = '\t'

/-- The text is the numeral with padding on both sides. -/
inductive Pads (numeral : List Char) : List Char → Prop
  | intro {before after : List Char} (isNumeral : IsNumeral numeral) (left : IsPadding before)
      (right : IsPadding after) : Pads numeral (before ++ numeral ++ after)

/-- The text is the two numerals, padded, with a dash between them. -/
inductive Spells (first second : List Char) : List Char → Prop
  | intro {left right : List Char} (start : Pads first left) (stop : Pads second right) :
    Spells first second (left ++ '-' :: right)

def numeralValue (numeral : List Char) : Nat :=
  Nat.ofDigits 10 (numeral.reverse.map fun c => c.toNat - '0'.toNat)

/-- What a text is to be read as. -/
inductive Reads (text : String) : Except RangeError LineRange → Prop
  | malformed (unspelled : ∀ first second, ¬ Spells first second text.toList) :
    Reads text (.error (.malformed text))
  | tooLarge {first second : List Char} (spelled : Spells first second text.toList)
      (large : 2 ^ 64 ≤ numeralValue first ∨ 2 ^ 64 ≤ numeralValue second) :
    Reads text (.error (.tooLarge text))
  | zero {first second : List Char} (spelled : Spells first second text.toList)
      (start_fits : numeralValue first < 2 ^ 64) (stop_fits : numeralValue second < 2 ^ 64)
      (start_zero : numeralValue first = 0) : Reads text (.error (.zero text))
  | backwards {first second : List Char} (spelled : Spells first second text.toList)
      (start_fits : numeralValue first < 2 ^ 64) (stop_fits : numeralValue second < 2 ^ 64)
      (start_pos : 0 < numeralValue first) (reversed : numeralValue second < numeralValue first) :
    Reads text (.error (.backwards text))
  | ok {first second : List Char} (spelled : Spells first second text.toList)
      (start_fits : numeralValue first < 2 ^ 64) (stop_fits : numeralValue second < 2 ^ 64)
      (start_pos : 0 < numeralValue first) (ordered : numeralValue first ≤ numeralValue second) :
    Reads text (.ok ⟨numeralValue first, numeralValue second⟩)

section Characters

variable {c : Char}

theorem isBlank_iff : isBlank c = true ↔ c = ' ' ∨ c = '\t' := by simp [isBlank]

theorem isDigit_iff : c.isDigit = true ↔ '0' ≤ c ∧ c ≤ '9' := by
  simp [Char.isDigit, Char.le_def]

theorem not_isDigit_isBlank (hdigit : c.isDigit = true) (hblank : isBlank c = true) : False := by
  rcases isBlank_iff.mp hblank with rfl | rfl <;> cases hdigit

end Characters

theorem lineLimit_eq : lineLimit = 2 ^ 64 := rfl

section Numerals

variable {numeral padded rest text first second : List Char}

theorem decimalValue_eq (cs : List Char) : decimalValue cs = numeralValue cs := by
  induction cs using List.reverseRecOn with
  | nil => rfl
  | append_singleton cs c ih =>
    have hstep : decimalValue (cs ++ [c]) = 10 * decimalValue cs + (c.toNat - '0'.toNat) := by
      rw [decimalValue, List.foldl_append]
      rfl
    rw [hstep, ih, numeralValue, numeralValue, List.reverse_append, List.reverse_singleton,
      List.singleton_append, List.map_cons, Nat.ofDigits_cons, Nat.add_comm]

/-- A run of characters of one class ends where the next character is of another. -/
theorem span_append {p : Char → Bool} {run rest : List Char} (hrun : ∀ c ∈ run, p c = true)
    (hrest : ∀ c ∈ rest.head?, p c = false) :
    (run ++ rest).takeWhile p = run ∧ (run ++ rest).dropWhile p = rest := by
  rw [List.takeWhile_append_of_pos hrun, List.dropWhile_append_of_pos hrun]
  cases rest with
  | nil => simp
  | cons c rest =>
    have hc : p c = false := hrest c rfl
    simp [hc]

theorem pads_of_numeral? (h : numeral? text = some (numeral, rest)) :
    ∃ padded, text = padded ++ rest ∧ Pads numeral padded := by
  simp only [numeral?] at h
  split at h
  · cases h
  · next hnonempty =>
    obtain ⟨rfl, rfl⟩ := Prod.mk.inj (Option.some.inj h)
    refine ⟨_, ?_, @Pads.intro _ (text.takeWhile isBlank)
      (((text.dropWhile isBlank).dropWhile Char.isDigit).takeWhile isBlank)
      ⟨hnonempty, fun c hc => isDigit_iff.mp (List.mem_takeWhile_imp hc)⟩
      (fun c hc => isBlank_iff.mp (List.mem_takeWhile_imp hc))
      fun c hc => isBlank_iff.mp (List.mem_takeWhile_imp hc)⟩
    simp only [List.append_assoc, List.takeWhile_append_dropWhile]

/-- A padded numeral is taken off as a whole if what follows is neither digit nor blank. -/
theorem numeral?_append (h : Pads numeral padded)
    (hrest : ∀ c ∈ rest.head?, c.isDigit = false ∧ isBlank c = false) :
    numeral? (padded ++ rest) = some (numeral, rest) := by
  cases h with
  | @intro before after isNumeral left right =>
    obtain ⟨digit, digits, rfl⟩ := List.exists_cons_of_ne_nil isNumeral.nonempty
    have hdigits : ∀ c ∈ digit :: digits, c.isDigit = true := fun c hc =>
      isDigit_iff.mpr (isNumeral.digits c hc)
    obtain ⟨-, hbefore⟩ := @span_append isBlank before (digit :: digits ++ (after ++ rest))
      (fun c hc => isBlank_iff.mpr (left c hc))
      (fun c hc => by
        obtain rfl : digit = c := Option.some.inj hc
        exact Bool.eq_false_iff.mpr (not_isDigit_isBlank (hdigits digit List.mem_cons_self)))
    obtain ⟨htake, hdrop⟩ := @span_append Char.isDigit (digit :: digits) (after ++ rest) hdigits
      (fun c hc => by
        cases after with
        | nil => exact (hrest c hc).1
        | cons blank after =>
          obtain rfl : blank = c := Option.some.inj hc
          exact Bool.eq_false_iff.mpr fun hdigit =>
            not_isDigit_isBlank hdigit (isBlank_iff.mpr (right blank List.mem_cons_self)))
    obtain ⟨-, hafter⟩ := @span_append isBlank after rest
      (fun c hc => isBlank_iff.mpr (right c hc)) (fun c hc => (hrest c hc).2)
    rw [List.append_assoc, List.append_assoc, numeral?, hbefore, htake, hdrop, hafter]

/-- Cutting a text finds the two numerals it spells, and only these. -/
theorem numerals?_eq_some_iff :
    numerals? text = some (first, second) ↔ Spells first second text := by
  constructor
  · intro h
    unfold numerals? at h
    split at h
    · next left right hleft =>
      split at h
      · next found hright =>
        obtain ⟨rfl, rfl⟩ := Prod.mk.inj (Option.some.inj h)
        obtain ⟨start, rfl, hstart⟩ := pads_of_numeral? hleft
        obtain ⟨stop, rfl, hstop⟩ := pads_of_numeral? hright
        rw [List.append_nil]
        exact .intro hstart hstop
      · cases h
    · cases h
  · rintro ⟨hstart, hstop⟩
    have hright := @numeral?_append second _ [] hstop (by simp)
    rw [List.append_nil] at hright
    rw [numerals?, numeral?_append hstart (by simp [isBlank])]
    simp only [hright]

end Numerals

variable {text : String} {answer : Except RangeError LineRange} {first second : List Char}

theorem parse_of_unspelled (h : ∀ first second, ¬ Spells first second text.toList) :
    parse text = .error (.malformed text) := by
  have hnone : numerals? text.toList = none := by
    rw [Option.eq_none_iff_forall_ne_some]
    rintro ⟨first, second⟩ hsome
    exact h first second (numerals?_eq_some_iff.mp hsome)
  rw [parse, hnone]

/-- A spelled range is judged by the values of its two numerals. -/
theorem parse_of_spells (h : Spells first second text.toList) :
    parse text =
      if 2 ^ 64 ≤ numeralValue first ∨ 2 ^ 64 ≤ numeralValue second then .error (.tooLarge text)
      else if numeralValue first = 0 then .error (.zero text)
      else if numeralValue second < numeralValue first then .error (.backwards text)
      else .ok ⟨numeralValue first, numeralValue second⟩ := by
  rw [parse, numerals?_eq_some_iff.mpr h]
  simp only [decimalValue_eq, lineLimit_eq]

theorem parse_of_reads (h : Reads text answer) : parse text = answer := by
  cases h with
  | malformed unspelled => exact parse_of_unspelled unspelled
  | tooLarge spelled large => rw [parse_of_spells spelled, if_pos large]
  | zero spelled start_fits stop_fits start_zero =>
    rw [parse_of_spells spelled, if_neg (by omega), if_pos start_zero]
  | backwards spelled start_fits stop_fits start_pos reversed =>
    rw [parse_of_spells spelled, if_neg (by omega), if_neg (by omega), if_pos reversed]
  | ok spelled start_fits stop_fits start_pos ordered =>
    rw [parse_of_spells spelled, if_neg (by omega), if_neg (by omega), if_neg (by omega)]

/-- Every text is read as something. -/
theorem exists_reads (text : String) : ∃ answer, Reads text answer := by
  by_cases hspelled : ∃ first second, Spells first second text.toList
  · obtain ⟨first, second, h⟩ := hspelled
    by_cases hlarge : 2 ^ 64 ≤ numeralValue first ∨ 2 ^ 64 ≤ numeralValue second
    · exact ⟨_, .tooLarge h hlarge⟩
    obtain ⟨hfirst, hsecond⟩ := not_or.mp hlarge
    rw [Nat.not_le] at hfirst hsecond
    rcases Nat.eq_zero_or_pos (numeralValue first) with hzero | hpos
    · exact ⟨_, .zero h hfirst hsecond hzero⟩
    · rcases Nat.lt_or_ge (numeralValue second) (numeralValue first) with hlt | hle
      · exact ⟨_, .backwards h hfirst hsecond hpos hlt⟩
      · exact ⟨_, .ok h hfirst hsecond hpos hle⟩
  · exact ⟨_, .malformed fun first second h => hspelled ⟨first, second, h⟩⟩

theorem reads_parse (text : String) : Reads text (parse text) := by
  obtain ⟨answer, h⟩ := exists_reads text
  rwa [parse_of_reads h]

/-- Reading a text gives the one answer that it is due. -/
theorem parse_eq_iff (text : String) (answer : Except RangeError LineRange) :
    parse text = answer ↔ Reads text answer := by
  constructor
  · rintro rfl
    exact reads_parse text
  · exact parse_of_reads

example : parse "0-18446744073709551616" = .error (.tooLarge "0-18446744073709551616") := by
  decide +kernel

section Writing

theorem isNumeral_toDigits (n : Nat) : IsNumeral (Nat.toDigits 10 n) where
  nonempty := Nat.toDigits_ne_nil
  digits _ hc := isDigit_iff.mp (Nat.isDigit_of_mem_toDigits (by decide) (by decide) hc)

theorem numeralValue_toDigits (n : Nat) : numeralValue (Nat.toDigits 10 n) = n := by
  rw [← decimalValue_eq, decimalValue, ← Nat.ofDigitChars_eq_foldl, Nat.ofDigitChars_ten_toDigits]

theorem pads_self {numeral : List Char} (h : IsNumeral numeral) : Pads numeral numeral := by
  have hpads := @Pads.intro numeral [] [] h (by simp [IsPadding]) (by simp [IsPadding])
  rwa [List.nil_append, List.append_nil] at hpads

theorem spells_render (r : LineRange) :
    Spells (Nat.toDigits 10 r.start) (Nat.toDigits 10 r.stop) r.render.toList := by
  have htext : r.render.toList = Nat.toDigits 10 r.start ++ '-' :: Nat.toDigits 10 r.stop := by
    simp [render, Nat.repr_eq_ofList_toDigits]
  rw [htext]
  exact .intro (pads_self (isNumeral_toDigits _)) (pads_self (isNumeral_toDigits _))

theorem parse_render_eq {r : LineRange} (hstart : r.start < 2 ^ 64) (hstop : r.stop < 2 ^ 64) :
    parse r.render =
      if r.start = 0 then .error (.zero r.render)
      else if r.stop < r.start then .error (.backwards r.render)
      else .ok r := by
  rw [parse_of_spells (spells_render r), numeralValue_toDigits, numeralValue_toDigits,
    if_neg (by omega)]

/-- A written range is read again unless it starts at zero or runs backwards, and that is the only
thing that can be wrong with it. What was read once is read the same once more when written out. -/
theorem parse_render :
    (∀ r : LineRange, r.start < 2 ^ 64 → r.stop < 2 ^ 64 →
      (parse r.render = .ok r ↔ 1 ≤ r.start ∧ r.start ≤ r.stop) ∧
      (parse r.render = .error (.zero r.render) ↔ r.start = 0) ∧
      (parse r.render = .error (.backwards r.render) ↔ 1 ≤ r.start ∧ r.stop < r.start) ∧
      ∀ cause, parse r.render = .error cause →
        cause = .zero r.render ∨ cause = .backwards r.render) ∧
    ∀ (text : String) (r : LineRange), parse text = .ok r → parse r.render = .ok r := by
  refine ⟨fun r hstart hstop => ?_, fun text r h => ?_⟩
  · rw [parse_render_eq hstart hstop]
    split
    · next hzero =>
      refine ⟨iff_of_false nofun (by omega), iff_of_true rfl hzero,
        iff_of_false nofun (by omega), ?_⟩
      exact fun cause hcause => .inl (Except.error.inj hcause).symm
    · next hpos =>
      split
      · next hreversed =>
        refine ⟨iff_of_false nofun (by omega), iff_of_false nofun hpos,
          iff_of_true rfl ⟨by omega, hreversed⟩, ?_⟩
        exact fun cause hcause => .inr (Except.error.inj hcause).symm
      · next hordered =>
        exact ⟨iff_of_true rfl (by omega), iff_of_false nofun hpos, iff_of_false nofun (by omega),
          nofun⟩
  · have hreads : Reads text (.ok r) := h ▸ reads_parse text
    cases hreads with
    | ok spelled start_fits stop_fits start_pos ordered =>
      rw [parse_render_eq start_fits stop_fits, if_neg (Nat.ne_of_gt start_pos),
        if_neg (Nat.not_lt.mpr ordered)]

/-- The largest range comes back, a reversed one is refused, and blanks and leading zeros are gone
once a text was read. -/
theorem parse_render_widest :
    parse (render ⟨1, 2 ^ 64 - 1⟩) = .ok ⟨1, 2 ^ 64 - 1⟩ ∧
      parse (render ⟨2 ^ 64 - 1, 1⟩) = .error (.backwards (render ⟨2 ^ 64 - 1, 1⟩)) ∧
      parse " 007-\t9 " = .ok ⟨7, 9⟩ ∧ parse (render ⟨7, 9⟩) = .ok ⟨7, 9⟩ := by
  obtain ⟨hwritten, hread⟩ := parse_render
  have hspaced : parse " 007-\t9 " = .ok ⟨7, 9⟩ := by decide +kernel
  exact ⟨(hwritten ⟨1, 2 ^ 64 - 1⟩ (by decide) (by decide)).1.mpr (by decide),
    (hwritten ⟨2 ^ 64 - 1, 1⟩ (by decide) (by decide)).2.2.1.mpr (by decide),
    hspaced, hread _ _ hspaced⟩

end Writing

end LineRange

end LineScope
