import LineScope.Config.FileTree
import Mathlib.Computability.StateTransition

/-!
# The nearest file that decides

From a start the search goes up, from a path to the one above it as they are written, and looks at
two candidates in each directory. What the first candidate says that says anything is the answer,
whatever lies behind it; and the way up ends, since each path has one component less.
-/
namespace LineScope

namespace Path

def above? (p : Path) : Option Path := if p.components = [] then none else some p.parent

/-- A path and the paths above it in order, as far up as there are any. -/
inductive Ascent : Path → List Path → Prop
  | top {p : Path} (bare : p.above? = none) : Ascent p [p]
  | up {p q : Path} {rest : List Path} (parent : p.above? = some q) (above : Ascent q rest) :
    Ascent p (p :: rest)

theorem upward_of_bare {p : Path} (h : p.components = []) : p.upward = [p] := by
  cases p
  simp_all [upward]

theorem upward_of_above {p : Path} (h : p.components ≠ []) : p.upward = p :: p.parent.upward := by
  obtain ⟨init, last, hlast⟩ := (List.eq_nil_or_concat p.components).resolve_left h
  rw [List.concat_eq_append] at hlast
  rw [upward, hlast, List.length_append, List.length_singleton, List.range_succ_eq_map,
    List.map_cons, List.map_map, upward, parent, hlast, List.dropLast_concat]
  congr 1
  · cases p
    simp_all
  · refine List.map_congr_left fun k _ => ?_
    simp only [Function.comp_apply, Nat.succ_eq_add_one, Nat.add_sub_add_right]
    rw [List.take_append_of_le_length (Nat.sub_le _ _)]

theorem Ascent.eq_upward {p : Path} {paths : List Path} (h : p.Ascent paths) :
    paths = p.upward := by
  induction h with
  | @top p bare =>
    have hbare : p.components = [] := by
      by_contra hne
      rw [above?, if_neg hne] at bare
      cases bare
    rw [upward_of_bare hbare]
  | @up p q rest parent above ih =>
    have hne : p.components ≠ [] := by
      intro hbare
      rw [above?, if_pos hbare] at parent
      cases parent
    rw [above?, if_neg hne, Option.some.injEq] at parent
    rw [upward_of_above hne, parent, ih]

theorem ascent_upward (p : Path) : p.Ascent p.upward := by
  induction hlength : p.components.length generalizing p with
  | zero =>
    have hbare := List.length_eq_zero_iff.mp hlength
    rw [upward_of_bare hbare]
    exact .top (if_pos hbare)
  | succ k ih =>
    have hne : p.components ≠ [] := List.ne_nil_of_length_eq_add_one hlength
    rw [upward_of_above hne]
    refine .up (if_neg hne) (ih p.parent ?_)
    rw [parent, List.length_dropLast, hlength, Nat.add_sub_cancel]

end Path

namespace Config

open StateTransition (eval mem_eval reaches_eval)

inductive Candidate where
  | dedicated (path : Path)
  | shared (path : Path)
  deriving DecidableEq

def Candidate.path : Candidate → Path
  | .dedicated path => path
  | .shared path => path

def candidatesIn (directory : Path) : List Candidate :=
  [.dedicated (directory.child dedicatedName), .shared (directory.child sharedName)]

variable {reader : Reader} {files : FileSystem} {start directory : Path} {c : Candidate}
  {answer : Except ConfigError Config}

/-- What a regular file answers. A shared one without a table for tools of ours answers nothing. -/
inductive Answers (reader : Reader) (files : FileSystem) :
    Candidate → Except ConfigError Config → Prop
  | unreadable {c : Candidate} (content : files.content? c.path = some .unreadable) :
    Answers reader files c (.error (.unreadable c.path))
  | malformed {c : Candidate} {text : String} (content : files.content? c.path = some (.text text))
      (unread : reader text = none) : Answers reader files c (.error .malformed)
  | dedicated {path : Path} {text : String} {sections : Sections}
      (content : files.content? path = some (.text text)) (read : reader text = some sections) :
    Answers reader files (.dedicated path)
      (.ok ⟨(sections.own.or sections.tool).getD .default, some path⟩)
  | shared {path : Path} {text : String} {sections : Sections} {settings : Settings}
      (content : files.content? path = some (.text text)) (read : reader text = some sections)
      (tool : sections.tool = some settings) :
    Answers reader files (.shared path) (.ok ⟨settings, some path⟩)

/-- The answer of the first candidate that answers, or the defaults, which come from no file. -/
inductive Settled (reader : Reader) (files : FileSystem) (candidates : List Candidate) :
    Except ConfigError Config → Prop
  | first {before after : List Candidate} {c : Candidate} {answer : Except ConfigError Config}
      (split : candidates = before ++ c :: after)
      (passed : ∀ b ∈ before, ∀ a, ¬ Answers reader files b a)
      (answers : Answers reader files c answer) : Settled reader files candidates answer
  | none (passed : ∀ c ∈ candidates, ∀ a, ¬ Answers reader files c a) :
    Settled reader files candidates (.ok ⟨.default, .none⟩)

def answer? (reader : Reader) (files : FileSystem) : Candidate → Option (Except ConfigError Config)
  | .dedicated path => (files.content? path).map (fromDedicated reader path)
  | .shared path => (files.content? path).bind (fromShared? reader path)

theorem answer?_of_no_file (h : files.content? c.path = none) : answer? reader files c = none := by
  cases c with
  | dedicated path => simp_all [answer?, Candidate.path]
  | shared path => simp_all [answer?, Candidate.path]

/-- A candidate that cannot be read answers so, whatever it is for. -/
theorem answer?_of_error {content : Content} {e : ConfigError}
    (hcontent : files.content? c.path = some content)
    (h : readSections reader c.path content = .error e) :
    answer? reader files c = some (.error e) := by
  cases c with
  | dedicated path => simp_all [answer?, Candidate.path, fromDedicated, Except.map]
  | shared path => simp_all [answer?, Candidate.path, fromShared?]

theorem Answers.answer?_eq (h : Answers reader files c answer) :
    answer? reader files c = some answer := by
  cases h with
  | unreadable content => exact answer?_of_error content rfl
  | malformed content unread => exact answer?_of_error content (by rw [readSections, unread])
  | dedicated content read =>
    rw [answer?, content, Option.map_some, fromDedicated, readSections, read]
    rfl
  | shared content read tool =>
    rw [answer?, content, Option.bind_some, fromShared?, readSections, read]
    simp [tool]

theorem answers_of_answer? (h : answer? reader files c = some answer) :
    Answers reader files c answer := by
  have hsame {a : Except ConfigError Config} (ha : Answers reader files c a) :
      Answers reader files c answer := by
    rw [ha.answer?_eq, Option.some.injEq] at h
    exact h ▸ ha
  rcases hcontent : files.content? c.path with _ | (text | _)
  · rw [answer?_of_no_file hcontent] at h
    cases h
  · cases hread : reader text with
    | none => exact hsame (.malformed hcontent hread)
    | some sections =>
      cases c with
      | dedicated path => exact hsame (.dedicated hcontent hread)
      | shared path =>
        cases htool : sections.tool with
        | some settings => exact hsame (.shared hcontent hread htool)
        | none => simp_all [answer?, Candidate.path, fromShared?, readSections]
  · exact hsame (.unreadable hcontent)

theorem answer?_eq_some_iff :
    answer? reader files c = some answer ↔ Answers reader files c answer :=
  ⟨answers_of_answer?, Answers.answer?_eq⟩

theorem answer?_eq_none_iff :
    answer? reader files c = none ↔ ∀ a, ¬ Answers reader files c a := by
  rw [Option.eq_none_iff_forall_ne_some]
  exact forall_congr' fun a => not_congr answer?_eq_some_iff

theorem inDirectory?_eq :
    inDirectory? reader files directory =
      (candidatesIn directory).findSome? (answer? reader files) := by
  rw [inDirectory?, candidatesIn, List.findSome?_cons, List.findSome?_cons, List.findSome?_nil,
    answer?, answer?]
  cases files.content? (directory.child dedicatedName) with
  | some content => rfl
  | none =>
    cases files.content? (directory.child sharedName) with
    | none => rfl
    | some content =>
      simp only [Option.map_none, Option.bind_some]
      cases fromShared? reader (directory.child sharedName) content <;> rfl

/-- Going through the directories is going through their candidates. -/
theorem findSome?_candidates (directories : List Path) :
    directories.findSome? (inDirectory? reader files) =
      (directories.flatMap candidatesIn).findSome? (answer? reader files) := by
  induction directories with
  | nil => rfl
  | cons directory rest ih =>
    rw [List.findSome?_cons, List.flatMap_cons, List.findSome?_append, inDirectory?_eq, ih]
    cases (candidatesIn directory).findSome? (answer? reader files) <;> rfl

/-- The first candidate that answers settles the matter. -/
theorem settled_iff {candidates : List Candidate} :
    Settled reader files candidates answer ↔
      (candidates.findSome? (answer? reader files)).getD (.ok .default) = answer := by
  constructor
  · intro h
    cases h with
    | @first before after c _ split passed answers =>
      have hbefore : before.findSome? (answer? reader files) = none :=
        List.findSome?_eq_none_iff.mpr fun b hb => answer?_eq_none_iff.mpr (passed b hb)
      rw [split, List.findSome?_append, hbefore, List.findSome?_cons, answers.answer?_eq]
      rfl
    | none passed =>
      have hall : candidates.findSome? (answer? reader files) = none :=
        List.findSome?_eq_none_iff.mpr fun c hc => answer?_eq_none_iff.mpr (passed c hc)
      rw [hall]
      rfl
  · rintro rfl
    cases hfound : candidates.findSome? (answer? reader files) with
    | none =>
      exact .none fun c hc => answer?_eq_none_iff.mp (List.findSome?_eq_none_iff.mp hfound c hc)
    | some answer =>
      obtain ⟨before, c, after, hsplit, hanswer, hbefore⟩ := List.findSome?_eq_some_iff.mp hfound
      exact .first hsplit (fun b hb => answer?_eq_none_iff.mp (hbefore b hb))
        (answers_of_answer? hanswer)

theorem discoverWith_eq : discoverWith reader files start =
    (((startDirectory files start).upward.flatMap candidatesIn).findSome?
      (answer? reader files)).getD (.ok .default) := by
  rw [discoverWith, findSome?_candidates]

/-- One turn of the search: on to the directory above, unless this one decides. -/
def turn (reader : Reader) (files : FileSystem) (directory : Path) : Option Path :=
  if (inDirectory? reader files directory).isSome then none else directory.above?

def reading (reader : Reader) (files : FileSystem) (directory : Path) : Except ConfigError Config :=
  (inDirectory? reader files directory).getD (.ok .default)

/-- The search as a loop. There is a result only if the loop stops. -/
def search (reader : Reader) (files : FileSystem) (start : Path) :
    Part (Except ConfigError Config) :=
  (eval (turn reader files) (startDirectory files start)).map (reading reader files)

theorem eval_turn_of_stop (h : turn reader files directory = none) :
    eval (turn reader files) directory = .some directory :=
  Part.eq_some_iff.mpr (mem_eval.mpr ⟨.refl, h⟩)

/-- The loop stops in the first directory that decides, or at the top. -/
theorem search_ascent {directories : List Path} (h : directory.Ascent directories) :
    (eval (turn reader files) directory).map (reading reader files) =
      .some ((directories.findSome? (inDirectory? reader files)).getD (.ok .default)) := by
  induction h with
  | @top p bare =>
    have hstop : turn reader files p = none := by
      rw [turn, bare, ite_self]
    rw [eval_turn_of_stop hstop, Part.map_some, reading, List.findSome?_cons, List.findSome?_nil]
    cases inDirectory? reader files p <;> rfl
  | @up p q rest parent above ih =>
    cases hdecides : inDirectory? reader files p with
    | some answer =>
      have hstop : turn reader files p = none := by
        rw [turn, hdecides, Option.isSome_some, if_pos rfl]
      rw [eval_turn_of_stop hstop, Part.map_some, reading, hdecides, List.findSome?_cons, hdecides]
    | none =>
      have hturn : turn reader files p = some q := by
        rw [turn, hdecides, parent, Option.isSome_none, if_neg Bool.false_ne_true]
      rw [reaches_eval (.single hturn), ih, List.findSome?_cons, hdecides]

/-- Only what a candidate holds itself counts for its answer. -/
theorem answer?_congr {other : FileSystem} (h : other.content? c.path = files.content? c.path) :
    answer? reader other c = answer? reader files c := by
  cases c with
  | dedicated path => simp_all [answer?, Candidate.path]
  | shared path => simp_all [answer?, Candidate.path]

theorem findSome?_append_of_answers {seen : List Candidate} (rest : List Candidate) (hc : c ∈ seen)
    (h : Answers reader files c answer) :
    (seen ++ rest).findSome? (answer? reader files) = seen.findSome? (answer? reader files) := by
  have hfound : (seen.findSome? (answer? reader files)).isSome = true :=
    List.findSome?_isSome_iff.mpr ⟨c, hc, by rw [h.answer?_eq]; rfl⟩
  rw [List.findSome?_append]
  exact Option.or_of_isSome hfound

/-- The candidates are those of the directories from the start upwards, a file standing for the one
that it is in. The first that answers settles the matter; nothing behind it counts, nor does any
other file; and the loop stops with that answer. -/
theorem discoverWith_nearest (reader : Reader) (files : FileSystem) (start : Path) :
    ∃ directories : List Path,
      (if (files.content? start).isSome then start.parent else start).Ascent directories ∧
      (∀ answer, discoverWith reader files start = answer ↔
        Settled reader files (directories.flatMap candidatesIn) answer) ∧
      (∀ seen rest, directories.flatMap candidatesIn = seen ++ rest →
        rest = [] ∨ (∃ c ∈ seen, ∃ answer, Answers reader files c answer) →
        ∀ other : FileSystem, (other.content? start).isSome = (files.content? start).isSome →
          (∀ c ∈ seen, other.content? c.path = files.content? c.path) →
          discoverWith reader other start = discoverWith reader files start) ∧
      search reader files start = .some (discoverWith reader files start) := by
  refine ⟨(startDirectory files start).upward, Path.ascent_upward _, fun answer => ?_, ?_, ?_⟩
  · rw [discoverWith_eq, settled_iff]
  · intro seen rest hsplit hend other hstart hseen
    have hsame : seen.findSome? (answer? reader other) = seen.findSome? (answer? reader files) := by
      rw [← List.head?_filterMap, ← List.head?_filterMap,
        List.filterMap_congr fun c hc => answer?_congr (hseen c hc)]
    rw [discoverWith_eq, discoverWith_eq,
      show startDirectory other start = startDirectory files start by
        rw [startDirectory, startDirectory, hstart], hsplit]
    rcases hend with rfl | ⟨c, hc, answer, hanswer⟩
    · rw [List.append_nil, hsame]
    · have hother : Answers reader other c answer :=
        answers_of_answer? ((answer?_congr (hseen c hc)).trans hanswer.answer?_eq)
      rw [findSome?_append_of_answers rest hc hother, findSome?_append_of_answers rest hc hanswer,
        hsame]
  · rw [search, search_ascent (Path.ascent_upward _), discoverWith]

/-- A shared file without a table for tools, an empty dedicated one above it, and a shared one next
to that. -/
def stackedFiles (text : String) : FileSystem :=
  FileTree.fileSystem (.ofList [(⟨false, ["a", "mod.py"]⟩, .file (.text "x = 1\n")),
    (⟨false, ["a", "pyproject.toml"]⟩, .file (.text "[incrfmt]\n\n[tool.ruff]\n")),
    (⟨false, [".incrfmt.toml"]⟩, .file (.text "")),
    (⟨false, ["pyproject.toml"]⟩, .file (.text text))])

/-- The empty dedicated file decides, whether the file behind it is broken or not. -/
theorem stackedFiles_nearest :
    discoverWith Sections.parse? (stackedFiles "[tool.incrfmt\n") ⟨false, ["a", "mod.py"]⟩ =
        .ok ⟨.default, some ⟨false, [".incrfmt.toml"]⟩⟩ ∧
      discoverWith Sections.parse? (stackedFiles "") ⟨false, ["a", "mod.py"]⟩ =
        .ok ⟨.default, some ⟨false, [".incrfmt.toml"]⟩⟩ := by
  obtain ⟨directories, hascent, hsettled, hbehind, -⟩ := discoverWith_nearest Sections.parse?
    (stackedFiles "[tool.incrfmt\n") ⟨false, ["a", "mod.py"]⟩
  have hcandidates : directories.flatMap candidatesIn =
      [.dedicated ⟨false, ["a", ".incrfmt.toml"]⟩, .shared ⟨false, ["a", "pyproject.toml"]⟩] ++
        .dedicated ⟨false, [".incrfmt.toml"]⟩ :: [.shared ⟨false, ["pyproject.toml"]⟩] := by
    rw [hascent.eq_upward]
    decide +kernel
  have hpassed : ∀ c ∈ [Candidate.dedicated ⟨false, ["a", ".incrfmt.toml"]⟩,
      .shared ⟨false, ["a", "pyproject.toml"]⟩],
      answer? Sections.parse? (stackedFiles "[tool.incrfmt\n") c = none := by
    decide +kernel
  have hanswer : Answers Sections.parse? (stackedFiles "[tool.incrfmt\n")
      (.dedicated ⟨false, [".incrfmt.toml"]⟩)
      (.ok ⟨.default, some ⟨false, [".incrfmt.toml"]⟩⟩) :=
    @Answers.dedicated _ _ _ "" ⟨none, none⟩ (by decide +kernel) (by decide +kernel)
  have hfirst := (hsettled _).mpr
    (.first hcandidates (fun c hc => answer?_eq_none_iff.mp (hpassed c hc)) hanswer)
  refine ⟨hfirst, Eq.trans ?_ hfirst⟩
  exact hbehind [_, _, _] [_] hcandidates (.inr ⟨_, by simp, _, hanswer⟩) (stackedFiles "")
    (by decide +kernel) (by decide +kernel)

end Config

end LineScope
