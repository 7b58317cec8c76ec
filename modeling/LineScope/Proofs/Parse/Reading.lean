import LineScope.Proofs.Parse.LaidOut
import LineScope.Proofs.Parse.Lines
import LineScope.Proofs.Tree.LeafLines
import Mathlib.Data.List.Chain

/-!
# Reading tokens from front to back

The cursor of the lowering never gets past the next token, and stops right behind the last one where
it matters: a newline is cut only where a line breaks before the next token. `Parse.Reaches` says so
of the leaves between two cursors, and that they climb from line to line.
-/
namespace LineScope

def Leaf.positions : Nat → List Leaf → List (Nat × Leaf)
  | _, [] => []
  | offset, leaf :: rest =>
    (offset + Text.byteLength leaf.trivia.toList, leaf) ::
      positions (offset + Text.byteLength (leaf.trivia.toList ++ leaf.value.toList)) rest

theorem Leaf.positions_append (offset : Nat) (xs ys : List Leaf) :
    positions offset (xs ++ ys) =
      positions offset xs ++ positions (offset + Text.byteLength (chars xs)) ys := by
  induction xs generalizing offset with
  | nil => simp [positions, chars, Text.byteLength]
  | cons leaf rest ih =>
    simp only [List.cons_append, positions, ih, chars, List.flatMap_cons, Text.byteLength_append,
      Nat.add_assoc]

namespace Parse

open Text Construct

/-- A leaf, with the offset of its text, made of a token. -/
structure IsLeafOf (text : String) (entry : Nat × Leaf) (t : Construct) : Prop where
  offset : entry.1 = t.start
  value : entry.2.value = String.ofList (slice text.toList t.start t.stop)
  line : entry.2.line = (LineIndex.ofText text.toList).lineOf t.start
  kind : entry.2.kind = tokenKind t.kind (slice text.toList t.start t.stop) ∨
    t.kind = "async" ∧ entry.2.kind = .async

/-- Where the first of some tokens starts, or else what follows them. -/
def firstStart (tokens : List Construct) (next : Nat) : Nat :=
  (tokens.head?.map Construct.start).getD next

/-- Where the last of some tokens stops, or else what comes before them. -/
def lastStop (prev : Nat) (tokens : List Construct) : Nat :=
  (tokens.getLast?.map Construct.stop).getD prev

theorem firstStart_append (tokens more : List Construct) (next : Nat) :
    firstStart (tokens ++ more) next = firstStart tokens (firstStart more next) := by
  cases tokens <;> rfl

theorem lastStop_append (prev : Nat) (tokens more : List Construct) :
    lastStop prev (tokens ++ more) = lastStop (lastStop prev tokens) more := by
  rcases List.eq_nil_or_concat more with rfl | ⟨init, t, rfl⟩
  · simp [lastStop]
  · simp [lastStop]

/-- A cursor from which the source can be cut on to an offset. -/
def Ready (text : String) (c : Cursor) (n : Nat) : Prop :=
  IsBoundary text.toList c.offset ∧ c.offset ≤ n

/-- Leaves cut between two cursors, the second of them not behind `next`: those that are not layout
are made of the given tokens. The lines of the leaves lie between those of the cursors. -/
structure Reaches (text : String) (c : Cursor) (leaves : List Leaf) (c' : Cursor)
    (tokens : List Construct) (next : Nat) : Prop where
  ready : Ready text c' next
  offset : c'.offset = c.offset + byteLength (Leaf.chars leaves)
  pairs : List.Forall₂ (IsLeafOf text)
    ((Leaf.positions c.offset leaves).filter fun entry => !entry.2.kind.isLayout) tokens
  newlines : ∀ entry ∈ Leaf.positions c.offset leaves, entry.2.kind = .newline → EndsLine text entry
  climbs : Lined text c → Leaf.Climbs c.lastLine leaves c'.lastLine ∧ Lined text c'

section Reaches

variable {text : String} {c c' c'' : Cursor} {leaves more : List Leaf}
  {tokens others : List Construct} {next : Nat}

theorem Reaches.nil (h : Ready text c next) : Reaches text c [] c [] next :=
  ⟨h, by simp [Leaf.chars, byteLength], by simp [Leaf.positions], by simp [Leaf.positions],
    fun hlined => ⟨Nat.le_refl _, hlined⟩⟩

theorem Reaches.mono (h : Reaches text c leaves c' tokens next) {next' : Nat} (hle : next ≤ next') :
    Reaches text c leaves c' tokens next' :=
  { h with ready := ⟨h.ready.1, h.ready.2.trans hle⟩ }

theorem Reaches.append {mid : Nat} (h : Reaches text c leaves c' tokens mid)
    (hmore : Reaches text c' more c'' others next) :
    Reaches text c (leaves ++ more) c'' (tokens ++ others) next := by
  refine ⟨hmore.ready, ?_, ?_, ?_, fun hlined => ?_⟩
  · rw [hmore.offset, h.offset, Leaf.chars, Leaf.chars, Leaf.chars, List.flatMap_append,
      byteLength_append, Nat.add_assoc]
  · rw [Leaf.positions_append, ← h.offset, List.filter_append]
    exact List.rel_append h.pairs hmore.pairs
  · rw [Leaf.positions_append, ← h.offset, List.forall_mem_append]
    exact ⟨h.newlines, hmore.newlines⟩
  · obtain ⟨hclimbs, hlined⟩ := h.climbs hlined
    exact ⟨hclimbs.append (hmore.climbs hlined).1, (hmore.climbs hlined).2⟩

theorem Reaches.layout {mid : Nat} (h : Reaches text c leaves c' tokens mid)
    (hmore : Reaches text c' more c'' [] next) :
    Reaches text c (leaves ++ more) c'' tokens next := by
  have happend := h.append hmore
  rwa [List.append_nil] at happend

theorem Reaches.leaves_ne_nil (h : Reaches text c leaves c' tokens next) (hne : tokens ≠ []) :
    leaves ≠ [] := by
  rintro rfl
  have hpairs := h.pairs
  simp only [Leaf.positions, List.filter_nil, List.forall₂_nil_left_iff] at hpairs
  exact hne hpairs

/-- The first of some leaves, if it is not layout, is made of the first token. -/
theorem Reaches.head_line (h : Reaches text c leaves c' tokens next) {leaf : Leaf}
    (hleaf : leaves.head? = some leaf) (hkind : leaf.kind.isLayout = false) :
    ∃ t ∈ tokens, leaf.line = (LineIndex.ofText text.toList).lineOf t.start := by
  obtain ⟨rest, rfl⟩ := List.head?_eq_some_iff.mp hleaf
  have hpairs := h.pairs
  rw [Leaf.positions, List.filter_cons_of_pos (by simp [hkind])] at hpairs
  obtain ⟨t, others, hpair, -, rfl⟩ := List.forall₂_cons_left_iff.mp hpairs
  exact ⟨t, by simp, hpair.line⟩

theorem reaches_layout {leaf : Leaf} (hkind : leaf.kind.isLayout = true)
    (hready : Ready text c' next) (hoffset : c'.offset = c.offset + byteLength (Leaf.chars [leaf]))
    (hnewline : leaf.kind = .newline →
      EndsLine text (c.offset + byteLength leaf.trivia.toList, leaf))
    (hlines : Lined text c → Leaf.Climbs c.lastLine [leaf] c'.lastLine ∧ Lined text c') :
    Reaches text c [leaf] c' [] next := by
  refine ⟨hready, hoffset, ?_, ?_, hlines⟩
  · rw [Leaf.positions, Leaf.positions, List.filter_singleton, hkind]
    exact .nil
  · simpa [Leaf.positions] using hnewline

/-- Marks of indentation around some leaves. The first of them is not before the line of its mark. -/
theorem Reaches.indented (h : Reaches text c leaves c' tokens next) {line : Nat}
    (hline : Lined text c → c.lastLine ≤ line ∧ Leaf.Climbs line leaves c'.lastLine) :
    Reaches text c (marker .indent line :: leaves ++ [marker .dedent c'.lastLine]) c' tokens
      next := by
  have hchars : Leaf.chars (marker .indent line :: leaves ++ [marker .dedent c'.lastLine]) =
      Leaf.chars leaves := by
    simp [Leaf.chars, marker]
  have hpositions : Leaf.positions c.offset
      (marker .indent line :: leaves ++ [marker .dedent c'.lastLine]) =
      (c.offset, marker .indent line) :: Leaf.positions c.offset leaves ++
        [(c'.offset, marker .dedent c'.lastLine)] := by
    rw [List.cons_append, Leaf.positions, Leaf.positions_append]
    simp [Leaf.positions, marker, byteLength, ← h.offset]
  refine ⟨h.ready, ?_, ?_, ?_, fun hlined => ?_⟩
  · rw [hchars]
    exact h.offset
  · rw [hpositions, List.filter_append, List.filter_cons_of_neg (by simp [marker, TokenKind.isLayout]),
      List.filter_singleton]
    simpa [marker, TokenKind.isLayout] using h.pairs
  · rw [hpositions]
    simpa [marker, or_imp, forall_and] using h.newlines
  · obtain ⟨hle, hclimbs⟩ := hline hlined
    refine ⟨⟨hle, ?_⟩, (h.climbs hlined).2⟩
    exact hclimbs.append ⟨Nat.le_refl _, Nat.le_refl _⟩

/-- A suite: the newline of its header, and its statements between marks of indentation. -/
theorem Reaches.suite {newline : Leaf} {n : Nat} (hnewline : Reaches text c [newline] c' [] n)
    (hline : c'.lastLine = (LineIndex.ofText text.toList).lineOf c.offset)
    (hbody : Reaches text c' leaves c'' tokens next) (hfirst : Leaf.TokenFirst leaves)
    (hne : tokens ≠ []) {start : Nat} (hle : c.offset ≤ start)
    (hstart : ∀ t ∈ tokens, start ≤ t.start) :
    Reaches text c (newline :: marker .indent ((LineIndex.ofText text.toList).lineOf start) ::
      leaves ++ [marker .dedent c''.lastLine]) c'' tokens next := by
  refine hnewline.append (hbody.indented fun hlined => ⟨?_, ?_⟩)
  · rw [hline]
    exact lineOf_mono _ hle
  · obtain ⟨leaf, hleaf⟩ := Option.isSome_iff_exists.mp
      (List.isSome_head?.mpr (hbody.leaves_ne_nil hne))
    obtain ⟨t, ht, hlt⟩ := hbody.head_line hleaf (hfirst leaf hleaf)
    refine (hbody.climbs hlined).1.of_head hleaf ?_
    rw [hlt]
    exact lineOf_mono _ (hstart t ht)

end Reaches

section Cursor

variable {text : String} {c : Cursor} {next : Nat}

theorem head?_slice_lineBreak (hc : IsBoundary text.toList c.offset) {feed : Nat}
    (hfeed : c.lineBreak? (.ofText text) = some feed) (hnext : IsBoundary text.toList next)
    (hlt : feed < next) : (slice text.toList feed next).head? = some '\n' := by
  have hend : IsBoundary text.toList (byteLength text.toList) := isBoundary_length _
  have hboundary : IsBoundary text.toList feed :=
    (@isBoundary_lineBreak (.ofText text) rfl c hc feed hfeed).1
  rw [Cursor.lineBreak?] at hfeed
  obtain ⟨k, hk, rfl⟩ := Option.map_eq_some_iff.mp hfeed
  obtain ⟨before, after, hslice, rfl, -⟩ := lineFeed?_eq_some hk
  have hsplit := slice_append hc hboundary hend (Nat.le_add_right _ _) hboundary.le_length
  rw [show slice text.toList c.offset (byteLength text.toList) = before ++ '\n' :: after from hslice]
    at hsplit
  have hrest := (append_inj_of_byteLength hsplit
    (by rw [byteLength_slice hc hboundary (Nat.le_add_right _ _)]; omega)).2
  rw [← slice_append hboundary hnext hend hlt.le hnext.le_length] at hrest
  have hne : slice text.toList (c.offset + byteLength before) next ≠ [] := by
    intro hnil
    have hlength := byteLength_slice hboundary hnext hlt.le
    rw [hnil, byteLength] at hlength
    omega
  rw [← List.head?_append_of_ne_nil _ hne, hrest, List.head?_cons]

theorem breaks_of_lineBreak? (hc : IsBoundary text.toList c.offset) {feed : Nat}
    (hfeed : c.lineBreak? (.ofText text) = some feed) (hnext : IsBoundary text.toList next)
    (hlt : feed < next) : Breaks text c.offset next := by
  have hmem := List.mem_of_head? (head?_slice_lineBreak hc hfeed hnext hlt)
  refine slice_subset hc hnext ?_ (Nat.le_refl _) hmem
  rw [Cursor.lineBreak?] at hfeed
  obtain ⟨k, -, rfl⟩ := Option.map_eq_some_iff.mp hfeed
  exact Nat.le_add_right _ _

theorem exists_lineFeed? {cs : List Char} (h : '\n' ∈ cs) (more : List Char) :
    ∃ k, lineFeed? (cs ++ more) = some k ∧ k < byteLength cs := by
  induction cs with
  | nil => simp at h
  | cons c cs ih =>
    have hpos := Char.utf8Size_pos c
    rw [List.cons_append, lineFeed?]
    split
    · exact ⟨0, rfl, by rw [byteLength]; omega⟩
    · next hc =>
      obtain ⟨k, hk, hlt⟩ := ih ((List.mem_cons.mp h).resolve_left (Ne.symm hc))
      exact ⟨c.utf8Size + k, by rw [hk]; rfl, by rw [byteLength]; omega⟩

theorem exists_lineBreak? (h : Breaks text c.offset next) :
    ∃ feed, c.lineBreak? (.ofText text) = some feed ∧ c.offset ≤ feed ∧ feed < next := by
  obtain ⟨hc, hnext, hlt⟩ := isBoundary_of_mem_slice h
  obtain ⟨k, hk, hkn⟩ := exists_lineFeed? h (slice text.toList next (byteLength text.toList))
  rw [slice_append hc hnext (isBoundary_length _) hlt.le hnext.le_length] at hk
  rw [byteLength_slice hc hnext hlt.le] at hkn
  exact ⟨c.offset + k, by rw [Cursor.lineBreak?]; exact congrArg _ hk, by omega, by omega⟩

/-- The newline of a line that breaks before `next`, or at the end of the text. -/
theorem reaches_newline (hc : IsBoundary text.toList c.offset)
    (h : Breaks text c.offset next ∨ next = byteLength text.toList) :
    Reaches text c [(c.takeNewline (.ofText text)).1] (c.takeNewline (.ofText text)).2 [] next := by
  obtain ⟨hboundary, hle, hchars, -⟩ := @takeNewline_cuts (.ofText text) rfl c hc
  refine reaches_layout (by rw [kind_takeNewline]; rfl) ⟨hboundary, ?_⟩ ?_
    (fun _ => (takeNewline_newlineCut hc).endsLine) (climbs_takeNewline hc)
  · rcases h with h | rfl
    · obtain ⟨feed, hfeed, hle, hlt⟩ := exists_lineBreak? h
      rw [Cursor.takeNewline, hfeed]
      simp only
      split <;>
      · simp only [Cursor.take]
        omega
    · exact hboundary.le_length
  · rw [hchars, show (Source.ofText text).chars = text.toList from rfl,
      byteLength_slice hc hboundary hle]
    omega

theorem reaches_end (hc : IsBoundary text.toList c.offset) :
    Reaches text c
      [(c.take (.ofText text) .endMarker (Source.ofText text).length (Source.ofText text).length).1]
      (c.take (.ofText text) .endMarker (Source.ofText text).length (Source.ofText text).length).2 []
      (byteLength text.toList) := by
  have hend : IsBoundary text.toList (Source.ofText text).length := isBoundary_length _
  obtain ⟨hboundary, hle, hchars, -⟩ := @take_cuts (.ofText text) rfl .endMarker (by decide) _ _
    (fun _ => hend) (fun _ => hend) c hc
  refine reaches_layout rfl ⟨hboundary, hboundary.le_length⟩ ?_ (by simp [Cursor.take])
    (climbs_take (fun _ => hend) (fun _ => hend) hc)
  rw [hchars, show (Source.ofText text).chars = text.toList from rfl,
    byteLength_slice hc hboundary hle]
  omega

/-- A token is cut whole where the cursor is not behind its start. -/
theorem reaches_take {t : Construct} {kind : TokenKind} (hkind : kind.isLayout = false)
    (hmade : kind = tokenKind t.kind (slice text.toList t.start t.stop) ∨
      t.kind = "async" ∧ kind = .async)
    (hstart : IsBoundary text.toList t.start) (hstop : IsBoundary text.toList t.stop)
    (hle : t.start ≤ t.stop) (hc : Ready text c t.start) :
    Reaches text c [(c.take (.ofText text) kind t.start t.stop).1]
      (c.take (.ofText text) kind t.start t.stop).2 [t]
      (c.take (.ofText text) kind t.start t.stop).2.offset ∧
    (c.take (.ofText text) kind t.start t.stop).2.offset = t.stop := by
  have hlength : t.stop ≤ (Source.ofText text).length := hstop.le_length
  have hfrom : min (max t.start c.offset) (Source.ofText text).length = t.start := by
    have := hc.2
    omega
  have hto : min (max t.stop t.start) (Source.ofText text).length = t.stop := by omega
  have hclimbs := @climbs_take text c kind t.start t.stop (fun _ => hstart) (fun _ => hstop) hc.1
  simp only [Cursor.take, hfrom, hto] at hclimbs ⊢
  refine ⟨⟨⟨hstop, Nat.le_refl _⟩, ?_, ?_, ?_, hclimbs⟩, trivial⟩
  · simp only [Leaf.chars, List.flatMap_cons, List.flatMap_nil, List.append_nil,
      String.toList_ofList, Source.ofText]
    rw [slice_append hc.1 hstart hstop hc.2 hle, byteLength_slice hc.1 hstop (hc.2.trans hle)]
    have := hc.2.trans hle
    omega
  · rw [Leaf.positions, Leaf.positions, List.filter_singleton]
    simp only [hkind, Bool.not_false]
    refine .cons ⟨?_, rfl, rfl, hmade⟩ .nil
    simp only [String.toList_ofList, Source.ofText]
    rw [byteLength_slice hc.1 hstart hc.2]
    have := hc.2
    omega
  · have hne : kind ≠ .newline := by
      rintro rfl
      cases hkind
    simp [Leaf.positions, hne]

end Cursor

section Bounds

variable {tokens : List Construct} {m n : Nat}

theorem firstStart_of_ne_nil (h : tokens ≠ []) (m n : Nat) :
    firstStart tokens m = firstStart tokens n := by
  cases tokens with
  | nil => exact absurd rfl h
  | cons t rest => rfl

theorem le_firstStart (h : ∀ t ∈ tokens, m ≤ t.start) (hle : m ≤ n) : m ≤ firstStart tokens n := by
  cases tokens with
  | nil => exact hle
  | cons t rest => exact h t (by simp)

theorem exists_getLast? (h : tokens ≠ []) (m : Nat) :
    ∃ t ∈ tokens, tokens.getLast? = some t ∧ lastStop m tokens = t.stop := by
  rcases List.eq_nil_or_concat tokens with rfl | ⟨init, t, rfl⟩
  · exact absurd rfl h
  · refine ⟨t, by simp, by simp, ?_⟩
    rw [List.concat_eq_append, lastStop_append]
    rfl

end Bounds

/-- The end of a text, or the start of one of its tokens. -/
def Opens (text : String) (top : List Construct) (n : Nat) : Prop :=
  n = byteLength text.toList ∨ ∃ t ∈ tokensOfAll top, t.start = n

theorem Opens.firstStart {text : String} {top tokens : List Construct} {n : Nat}
    (h : Opens text top n) (hsub : tokens ⊆ tokensOfAll top) :
    Opens text top (firstStart tokens n) := by
  cases tokens with
  | nil => exact h
  | cons t rest => exact .inr ⟨t, hsub (by simp), rfl⟩

theorem BreaksAfter.breaks {text : String} {top : List Construct} {m n : Nat}
    (h : BreaksAfter text top m) (hn : Opens text top n) (hle : m ≤ n) :
    Breaks text m n ∨ n = byteLength text.toList := by
  rcases hn with hn | ⟨t, ht, rfl⟩
  · exact .inr hn
  · exact .inl (h t ht hle)

/-- What lies between two offsets lies behind a cursor further ahead. -/
theorem Breaks.of_le {text : String} {m n : Nat} {c : Cursor} (h : Breaks text m n)
    (hc : IsBoundary text.toList c.offset) (hle : c.offset ≤ m) {k : Nat}
    (hk : IsBoundary text.toList k) (hnk : n ≤ k) : Breaks text c.offset k :=
  slice_subset hc hk hle hnk h

def Behind (top : List Construct) (p : Construct) (c : Cursor) : Prop :=
  ∃ t, p.tokens.getLast? = some t ∧ t ∈ tokensOfAll top ∧ c.offset = t.stop ∧ t.stop ≤ p.stop

/-- Cutting some tokens, and what follows them up to the next one. -/
def Reads (text : String) (top : List Construct) (run : Cursor → List Leaf × Cursor)
    (tokens : List Construct) (stop : Nat) : Prop :=
  ∀ next, Opens text top next → stop ≤ next → ∀ c, Ready text c (firstStart tokens next) →
    Reaches text c (run c).1 (run c).2 tokens next ∧ Leaf.TokenFirst (run c).1

def Lexes (text : String) (run : Cursor → List Leaf × Cursor) (tokens : List Construct) : Prop :=
  ∀ c, Ready text c (firstStart tokens c.offset) →
    Reaches text c (run c).1 (run c).2 tokens (run c).2.offset ∧
      (run c).2.offset = lastStop c.offset tokens ∧ Leaf.TokenFirst (run c).1

section Lists

variable {text : String} {top parts : List Construct} {lo hi : Nat} (h : LaidOut text top)
include h

omit h in
theorem tokens_mem {site : Site} (hamong : Among top site parts) :
    tokensOfAll parts ⊆ tokensOfAll top := by
  intro t ht
  rw [tokensOfAll_eq_flatMap, List.mem_flatMap] at ht
  obtain ⟨p, hp, ht⟩ := ht
  exact LaidOut.token_mem (hamong p hp).1 ht

theorem spans_among {site : Site} (hamong : Among top site parts)
    (hascend : ascend lo hi parts = true) :
    lo ≤ hi ∧ ∀ t ∈ tokensOfAll parts, lo ≤ t.start ∧ t.stop ≤ hi :=
  spans_of_ascend hascend fun p hp => h.spans_node (hamong p hp).1

/-- Cutting the tokens of a node that is no block stops right behind the last of them. -/
theorem Lexes.stop {run : Cursor → List Leaf × Cursor} {p : Construct}
    (hlexes : Lexes text run p.tokens) (hp : p ∈ nodesOfAll top) (hblock : p.kind ≠ "block")
    {more : List Construct} {next : Nat} {c : Cursor}
    (hc : Ready text c (firstStart (p.tokens ++ more) next)) :
    Reaches text c (run c).1 (run c).2 p.tokens p.stop ∧ Leaf.TokenFirst (run c).1 ∧
      Behind top p (run c).2 := by
  have hne := h.full p hp hblock
  rw [firstStart_append, firstStart_of_ne_nil hne _ c.offset] at hc
  obtain ⟨hreaches, hoffset, hled⟩ := hlexes c hc
  obtain ⟨t, ht, hlast, hstop⟩ := exists_getLast? hne c.offset
  have hle := ((h.spans_node hp).2 t ht).2
  refine ⟨hreaches.mono (by rwa [hoffset, hstop]), hled, t, hlast, LaidOut.token_mem hp ht, ?_, hle⟩
  rw [hoffset, hstop]

theorem le_first {site : Site} (hamong : Among top site parts)
    (hascend : ascend lo hi parts = true) : lo ≤ firstStart (tokensOfAll parts) hi := by
  obtain ⟨hle, htokens⟩ := spans_among h hamong hascend
  exact le_firstStart (fun t ht => (htokens t ht).1) hle

/-- The newline behind a node whose line breaks before every later token. -/
theorem newline_after {c : Cursor} {m : Nat} (hc : Ready text c m) (hbreaks : BreaksAfter text top m)
    {site : Site} (hamong : Among top site parts) (hascend : ascend m hi parts = true)
    (hopens : Opens text top hi) :
    Reaches text c [(c.takeNewline (.ofText text)).1] (c.takeNewline (.ofText text)).2 []
      (firstStart (tokensOfAll parts) hi) := by
  refine reaches_newline hc.1 ?_
  have hfirst := hopens.firstStart (tokens_mem hamong)
  refine (hbreaks.breaks hfirst (le_first h hamong hascend)).imp_left fun hbreak => ?_
  exact hbreak.of_le hc.1 hc.2 (isBoundary_of_mem_slice hbreak).2.1 (Nat.le_refl _)

theorem opens_boundary {n : Nat} (hn : Opens text top n) : IsBoundary text.toList n := by
  rcases hn with rfl | ⟨t, ht, rfl⟩
  · exact isBoundary_length _
  · exact (h.boundaries (LaidOut.mem_nodes_of_token ht)).1

theorem breaks_of_lineOf_ne {t : Construct} (ht : t ∈ tokensOfAll top) {n : Nat}
    (hn : IsBoundary text.toList n) (hle : t.stop ≤ n)
    (hne : (LineIndex.ofText text.toList).lineOf n ≠
      (LineIndex.ofText text.toList).lineOf (t.stop - 1)) :
    Breaks text t.stop n := by
  obtain ⟨hstart, hstop⟩ := h.boundaries (LaidOut.mem_nodes_of_token ht)
  obtain ⟨hword, -, hlast⟩ := h.word t ht
  have hsame : (LineIndex.ofText text.toList).lineOf (t.stop - 1) =
      (LineIndex.ofText text.toList).lineOf t.stop := by
    obtain ⟨before, mid, after, hchars, hbefore, hmid⟩ :=
      hstart.exists_between hstop (h.token_lt ht).le
    have hslice : slice text.toList t.start t.stop = mid := by
      rw [hchars, ← hmid, ← hbefore, slice_between]
    rw [hslice] at hword hlast
    obtain ⟨init, c, rfl⟩ := (List.eq_nil_or_concat mid).resolve_left hword
    have hc : c ≠ '\n' := by
      rintro rfl
      simp at hlast
    have hlength : byteLength ((before ++ init) ++ [c]) = t.stop := by
      rw [← hmid, ← hbefore]
      simp [byteLength_append]
    have hline := @lineOf_sub_one (before ++ init) after c hc
    rw [hlength] at hline
    rw [hchars]
    simpa using hline
  rw [hsame, lineOf_add hstop hn hle] at hne
  have hcount : lineFeeds (slice text.toList t.stop n) ≠ 0 := by omega
  exact List.count_pos_iff.mp (Nat.pos_of_ne_zero hcount)

end Lists

end Parse

end LineScope
