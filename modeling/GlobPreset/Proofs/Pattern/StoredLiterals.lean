import GlobPreset.Proofs.Pattern.Stored
import GlobPreset.Proofs.Selection.Normal

/-!
# Literal paths as stored lines

A literal path is escaped where reading a line would drop something from its start: marks, and
blanks of every kind. At its end only a space is escaped, though reading drops blanks of every kind
from there as well. So a path survives being stored exactly if it does not end with another blank.

## Main definitions

* `Path.IsLine` — a path that can stand on a line of its own.
* `Text.EndsPlain` — a text that ends with no blank but a space.
* `PatternList.Entry.literal`, `PatternList.Entry.line` — the entry of a literal path, and how it is
  stored.

## Main results

* `PatternList.endsPlain_of_parse` — whatever is read, no pattern ends with another blank.
* `PatternList.parse_literals_iff` — **the entries of literal paths are read back exactly if no
  path ends with another blank**.
* `Selection.parse_literals_iff` — the same for the paths of a normal selection.
* `Selection.not_parse_literals` — a path that does not survive being stored.
-/

set_option autoImplicit false

namespace GlobPreset

open GlobPreset.Path Text

/-! ### Paths and texts -/

/-- A path that can stand on a line of its own: it is there, has no backslash and no end of a line,
and does not start with `./`. -/
structure Path.IsLine (path : Text) : Prop where
  /-- It is not empty. -/
  ne_nil : path ≠ []
  /-- No backslash is there. -/
  noBackslash : .of '\\' ∉ path
  /-- No line ends in it. -/
  noBoundary : path.any isLineBoundary = false
  /-- It does not start with `./`. -/
  noDots : ¬ [.of '.', .of '/'] <+: path

/-- The text ends with no blank but a space. -/
def Text.EndsPlain (t : Text) : Prop :=
  t.getLast?.any (fun c => isBlank c && c != .of ' ') = false

instance (t : Text) : Decidable t.EndsPlain := inferInstanceAs (Decidable (_ = false))

namespace Text

/-- A text ends plainly if its last character is no blank other than a space. -/
lemma endsPlain_concat {front : Text} {c : CodePoint} :
    EndsPlain (front ++ [c]) ↔ (isBlank c = true → c = .of ' ') := by
  rw [EndsPlain, List.getLast?_concat, Option.any_some]
  simp

/-- What a text ends with, its last part ends with. -/
lemma EndsPlain.of_suffix {s t : Text} (h : EndsPlain t) (hs : s <:+ t) : EndsPlain s := by
  rcases List.eq_nil_or_concat' s with rfl | ⟨front, c, rfl⟩
  · rfl
  · obtain ⟨lead, rfl⟩ := hs
    rw [← List.append_assoc, endsPlain_concat] at h
    exact endsPlain_concat.2 h

end Text

/-- What is left without a `./` in front is the end of the path. -/
lemma Path.dropDotSlash_suffix (path : Text) : dropDotSlash path <:+ path := by
  fun_induction dropDotSlash path with
  | case1 rest ih => exact ih.trans ⟨[.of '.', .of '/'], rfl⟩
  | case2 path _ => exact List.suffix_refl path

/-- A pattern starts with `./` only if the text that it spells does. -/
lemma Pattern.Spells.dotSlash {s t : Text} (h : Spells s t) (hlead : [.of '.', .of '/'] <+: s) :
    [.of '.', .of '/'] <+: t := by
  obtain ⟨rest, rfl⟩ := hlead
  cases h with
  | plain _ h =>
    cases h with
    | plain _ h => exact ⟨_, rfl⟩

/-- The pattern of a path ends as the path does. -/
lemma Pattern.endsPlain_escapeLiteral {path : Text} :
    EndsPlain (escapeLiteral path) ↔ EndsPlain path := by
  rw [EndsPlain, EndsPlain, (spells_escapeLiteral path).getLast?_eq]

namespace PatternList

/-! ### What is read -/

/-- A line that has been read ends with no blank but a space. -/
lemma endsPlain_stripLine (raw : Text) : EndsPlain (stripLine raw) := by
  have hend : EndsPlain (stripEnd (stripStart raw)) := by
    rw [stripEnd, dropEndWhile_eq_rdropWhile]
    rcases List.eq_nil_or_concat' ((stripStart raw).rdropWhile isBlank) with hnil | ⟨front, c, hc⟩
    · rw [hnil]
      rfl
    · have hne : (stripStart raw).rdropWhile isBlank ≠ [] := by simp [hc]
      have hlast := List.rdropWhile_last_not isBlank (stripStart raw) hne
      simp only [hc, List.getLast_concat] at hlast
      rw [hc, endsPlain_concat]
      exact fun h => absurd h hlast
  simp only [stripLine]
  split
  · exact endsPlain_concat.2 fun _ => rfl
  · exact hend

/-- A pattern that is read from a line ends with no blank but a space. -/
lemma endsPlain_of_readLine? {raw pattern : Text}
    (h : readLine? raw = some (.selects pattern) ∨ readLine? raw = some (.rejects pattern)) :
    EndsPlain pattern := by
  have hsuffix : ∃ line, pattern = dropDotSlash (stripLine line) := by
    unfold readLine? at h
    split at h
    · simp at h
    · simp at h
    · rename_i rest _
      dsimp only at h
      split at h
      · simp at h
      · simp only [Option.some.injEq, reduceCtorEq, false_or, Entry.rejects.injEq] at h
        exact ⟨rest, h.symm⟩
    · simp only [Option.some.injEq, reduceCtorEq, or_false, Entry.selects.injEq] at h
      exact ⟨raw, h.symm⟩
  obtain ⟨line, rfl⟩ := hsuffix
  exact (endsPlain_stripLine line).of_suffix (dropDotSlash_suffix _)

/-- **Whatever is read, no pattern ends with a blank other than a space.** -/
theorem endsPlain_of_parse {text p : Text}
    (h : p ∈ (parse text).includes ++ (parse text).excludes) : EndsPlain p := by
  rw [List.mem_append, parse, ofEntries] at h
  rcases h with h | h
  · dsimp only at h
    split at h
    · rw [List.mem_singleton.1 h]
      decide
    · obtain ⟨line, -, hline⟩ := mem_selected.1 h
      exact endsPlain_of_readLine? (.inl hline)
  · obtain ⟨line, -, hline⟩ := mem_rejected.1 h
    exact endsPlain_of_readLine? (.inr hline)

/-! ### What is written -/

namespace Entry

/-- The text of an entry, whatever it stands for. -/
def text : Entry → Text
  | selects t => t
  | rejects t => t

/-- The entry whose pattern is that of a literal path. -/
def literal : Entry → Entry
  | selects path => selects (Pattern.escapeLiteral path)
  | rejects path => rejects (Pattern.escapeLiteral path)

/-- The line of an entry: one that rejects has a mark in front. -/
def line : Entry → Text
  | selects pattern => pattern
  | rejects pattern => .of '!' :: pattern

/-- Entries made literal select the escaped texts of those that select. -/
lemma filterMap_selected?_literal (entries : List Entry) :
    (entries.map literal).filterMap selected? =
      (entries.filterMap selected?).map Pattern.escapeLiteral := by
  rw [List.filterMap_map, List.map_filterMap]
  refine List.filterMap_congr fun e _ => ?_
  cases e <;> rfl

/-- Entries made literal reject the escaped texts of those that reject. -/
lemma filterMap_rejected?_literal (entries : List Entry) :
    (entries.map literal).filterMap rejected? =
      (entries.filterMap rejected?).map Pattern.escapeLiteral := by
  rw [List.filterMap_map, List.map_filterMap]
  refine List.filterMap_congr fun e _ => ?_
  cases e <;> rfl

/-- The pattern of a path that stands on a line is stored as it is, if the path ends plain. -/
lemma isStored_literal {path : Text} (h : IsLine path) (hends : EndsPlain path) :
    IsStored (Pattern.escapeLiteral path) := by
  have hdots : ¬ [.of '.', .of '/'] <+: Pattern.escapeLiteral path ++ [] := by
    rw [List.append_nil]
    exact fun hlead => h.noDots ((Pattern.spells_escapeLiteral path).dotSlash hlead)
  have hkeeps : KeepsEnd (Pattern.escapeLiteral path ++ []) := by
    rw [List.append_nil]
    exact keepsEnd_escapeLiteral h.ne_nil h.noBackslash hends
  have hstored := isStored_append h.ne_nil h.noBoundary rfl hdots hkeeps
  rwa [List.append_nil] at hstored

/-- **The line of a literal path is read as its entry**, if the path ends plain. -/
lemma readLine?_line_literal {e : Entry} (h : IsLine e.text) (hends : EndsPlain e.text) :
    readLine? e.literal.line = some e.literal := by
  cases e with
  | selects path => exact (isStored_literal h hends).readLine?_eq
  | rejects path => exact (isStored_literal h hends).readLine?_mark

/-- No line ends in the line of a literal entry, if none ends in its text. -/
lemma noBoundary_line_literal {e : Entry} (h : IsLine e.text) :
    e.literal.line.any isLineBoundary = false := by
  cases e with
  | selects path => exact noBoundary_escapeLiteral h.noBoundary
  | rejects path =>
    have hpath : (Pattern.escapeLiteral path).any isLineBoundary = false :=
      noBoundary_escapeLiteral h.noBoundary
    rw [literal, line, List.any_cons, hpath]
    rfl

end Entry

/-- **The entries of literal paths are read back exactly if no path ends with a blank other than a
space.** -/
theorem parse_literals_iff {entries : List Entry} (h : ∀ e ∈ entries, IsLine e.text)
    (hselects : ∃ path, .selects path ∈ entries) :
    parse (storedText (entries.map fun e => e.literal.line)) =
        ⟨(entries.filterMap Entry.selected?).map Pattern.escapeLiteral,
          (entries.filterMap Entry.rejected?).map Pattern.escapeLiteral⟩ ↔
      ∀ e ∈ entries, EndsPlain e.text := by
  rw [← Entry.filterMap_selected?_literal, ← Entry.filterMap_rejected?_literal]
  constructor
  · intro hparse e he
    -- each path is that of a pattern that has been read
    have hmem : e.literal.text ∈ (parse (storedText (entries.map fun e => e.literal.line))).includes
        ++ (parse (storedText (entries.map fun e => e.literal.line))).excludes := by
      rw [hparse, List.mem_append, List.mem_filterMap, List.mem_filterMap]
      have he := List.mem_map_of_mem (f := Entry.literal) he
      cases e with
      | selects path => exact .inl ⟨_, he, rfl⟩
      | rejects path => exact .inr ⟨_, he, rfl⟩
    have hends := endsPlain_of_parse hmem
    cases e with
    | selects path => exact Pattern.endsPlain_escapeLiteral.1 hends
    | rejects path => exact Pattern.endsPlain_escapeLiteral.1 hends
  · intro hends
    have hlines : lines (storedText (entries.map fun e => e.literal.line)) =
        entries.map fun e => e.literal.line := by
      refine lines_storedText fun p hp => ?_
      obtain ⟨e, he, rfl⟩ := List.mem_map.1 hp
      exact Entry.noBoundary_line_literal (h e he)
    have hread : (entries.map fun e => e.literal.line).filterMap readLine? =
        entries.map Entry.literal := by
      rw [List.filterMap_map, ← List.filterMap_eq_map]
      exact List.filterMap_congr fun e he => Entry.readLine?_line_literal (h e he) (hends e he)
    have hne : (entries.map Entry.literal).filterMap Entry.selected? ≠ [] := by
      obtain ⟨path, hpath⟩ := hselects
      exact List.ne_nil_of_mem
        (List.mem_filterMap.2 ⟨_, List.mem_map_of_mem (f := Entry.literal) hpath, rfl⟩)
    rw [parse, hlines, hread, ofEntries_eq (.inl hne)]

end PatternList

/-! ### Selections -/

namespace Selection

open PatternList

/-- A path of a normal selection in which no line ends can stand on a line of its own. -/
lemma isLine_of_normalize {inputs paths : List Text} (h : normalize inputs = .ok paths)
    {path : Text} (hpath : path ∈ paths) (hline : path.any isLineBoundary = false) :
    IsLine path := by
  obtain ⟨input, -, rfl, hne⟩ := exists_normalPath h hpath
  exact ⟨hne, backslash_not_mem_normalPath input, hline, noDots_normalPath input⟩

/-- **The paths of a normal selection are read back** from the lines that they are written on,
exactly if none of them ends with a blank other than a space. -/
theorem parse_literals_iff {inputs paths : List Text} (h : normalize inputs = .ok paths)
    {entries : List PatternList.Entry}
    (hentries : ∀ e ∈ entries, e.text ∈ paths ∧ e.text.any isLineBoundary = false)
    (hselects : ∃ path, .selects path ∈ entries) :
    parse (storedText (entries.map fun e => e.literal.line)) =
        ⟨(entries.filterMap PatternList.Entry.selected?).map Pattern.escapeLiteral,
          (entries.filterMap PatternList.Entry.rejected?).map Pattern.escapeLiteral⟩ ↔
      ∀ e ∈ entries, EndsPlain e.text :=
  PatternList.parse_literals_iff
    (fun e he => isLine_of_normalize h (hentries e he).1 (hentries e he).2) hselects

/-- **A path that ends with a tab does not survive being stored.** -/
theorem not_parse_literals :
    normalize ["a\t".toText] = .ok ["a\t".toText] ∧
      Pattern.escapeLiteral "a\t".toText = "a\t".toText ∧
      parse "a\t\n".toText = ⟨["a".toText], []⟩ := by
  decide

end Selection

end GlobPreset
