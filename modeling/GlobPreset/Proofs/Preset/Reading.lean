import GlobPreset.Proofs.Preset.File

/-!
# The patterns of a preset file

Loading a preset reads every line of its text that is neither blank nor a comment. The text is put
together from free texts, and whatever ends a line inside of them cuts the comment that holds them:
the rest of it is read as a pattern. So what is loaded are the patterns that were saved, behind what
is read from the header, which is nothing as long as no line ends in what the header tells.

## Main definitions

* `PresetFile.IsPatternLine` — a pattern that is read from a line of its own as it was written.

## Main results

* `Text.lines_unifyNewlines` — reading carriage returns as line feeds leaves the lines as they are.
* `PresetFile.patternLines_append` — a line feed keeps the patterns in front of it and behind it
  apart.
* `PresetFile.patternLines_render` — **what is loaded from the text of a preset**.
* `PresetFile.patternLines_render_iff` — when these are just the patterns that were saved.
-/

set_option autoImplicit false

namespace GlobPreset

open Text PatternList

/-! ### Lines -/

namespace Text

/-- A text that is there has a line. -/
lemma lines_ne_nil {t : Text} (h : t ≠ []) : lines t ≠ [] := by
  fun_cases lines t with
  | case1 => exact absurd rfl h
  | case2 => exact List.cons_ne_nil _ _
  | case3 => exact List.cons_ne_nil _ _
  | case4 c rest _ _ => cases lines rest <;> exact List.cons_ne_nil _ _

/-- A carriage return that no line feed follows ends a line. -/
lemma lines_return {t : Text} (h : t.head? ≠ some (.of '\n')) :
    lines (.of '\r' :: t) = [] :: lines t := by
  rw [lines, if_pos (by decide)]
  rintro rest - rfl
  exact h rfl

/-- **Reading carriage returns as line feeds** leaves the lines as they are. -/
lemma lines_unifyNewlines (t : Text) : lines (unifyNewlines t) = lines t := by
  fun_induction unifyNewlines t with
  | case1 => rfl
  | case2 rest ih => rw [lines_feed, ih, lines]
  | case3 c rest hno ih =>
    by_cases hc : c = .of '\r'
    · subst hc
      have hhead : rest.head? ≠ some (.of '\n') := by
        intro hfeed
        exact hno rest.tail rfl (List.eq_cons_of_mem_head? (by rw [hfeed]; rfl))
      rw [if_pos rfl, lines_feed, lines_return hhead, ih]
    · rw [if_neg hc, lines_cons hc, lines_cons hc, ih]

/-- Going on with a first line that is there leaves what follows it. -/
lemma consLine_append {ls : List Text} (h : ls ≠ []) (c : CodePoint) (more : List Text) :
    consLine c (ls ++ more) = consLine c ls ++ more := by
  cases ls with
  | nil => exact absurd rfl h
  | cons l ls => rfl

/-- **The lines in front of a line feed and those behind it**; an empty one may be between them. -/
lemma exists_lines_append_feed (s t : Text) :
    ∃ gap, (gap = [] ∨ gap = [[]]) ∧ lines (s ++ .of '\n' :: t) = lines s ++ (gap ++ lines t) := by
  fun_induction lines s with
  | case1 => exact ⟨[[]], .inr rfl, lines_feed t⟩
  | case2 rest ih =>
    obtain ⟨gap, hgap, hlines⟩ := ih
    refine ⟨gap, hgap, ?_⟩
    rw [List.cons_append, List.cons_append, lines, hlines, List.cons_append]
  | case3 c rest hno hc ih =>
    by_cases hrest : rest = []
    · -- the line feed may end the same line as a carriage return in front of it
      subst hrest
      by_cases hreturn : c = .of '\r'
      · subst hreturn
        exact ⟨[], .inl rfl, by rw [List.singleton_append, lines]; rfl⟩
      · refine ⟨[[]], .inr rfl, ?_⟩
        rw [List.singleton_append, lines_cons hreturn, if_pos hc, lines_feed]
        rfl
    · obtain ⟨gap, hgap, hlines⟩ := ih
      refine ⟨gap, hgap, ?_⟩
      rw [List.cons_append, lines, if_pos hc, hlines, List.cons_append]
      intro more hreturn hmore
      obtain ⟨d, rest, rfl⟩ := List.exists_cons_of_ne_nil hrest
      exact hno rest hreturn (by rw [(List.cons.inj hmore).1])
  | case4 c rest hno hc ih =>
    have hc : isLineBoundary c = false := by simpa using hc
    by_cases hrest : rest = []
    · subst hrest
      exact ⟨[], .inl rfl, by rw [List.singleton_append, lines_cons_of_not hc, lines_feed]; rfl⟩
    · obtain ⟨gap, hgap, hlines⟩ := ih
      refine ⟨gap, hgap, ?_⟩
      rw [List.cons_append, lines_cons_of_not hc, hlines, consLine_append (lines_ne_nil hrest)]

end Text

namespace PresetFile

/-! ### What is read -/

/-- The text without lines has no patterns. -/
lemma patternLines_nil : patternLines [] = [] := rfl

/-- **A line feed keeps apart** the patterns in front of it and those behind it. -/
lemma patternLines_append (s t : Text) :
    patternLines (s ++ .of '\n' :: t) = patternLines s ++ patternLines t := by
  obtain ⟨gap, hgap, hlines⟩ := exists_lines_append_feed s t
  rw [patternLines, hlines, patternLines, patternLines, List.map_append, List.map_append,
    List.filter_append, List.filter_append]
  rcases hgap with rfl | rfl
  · rw [List.map_nil, List.filter_nil, List.nil_append]
  · have hblank : ([[]].map strip).filter (fun l => !l.isEmpty && l.head? != some (.of '#')) = [] :=
      rfl
    rw [hblank, List.nil_append]

/-- The patterns of a stored list are those of its lines. -/
lemma patternLines_storedText (ls : List Text) :
    patternLines (storedText ls) = ls.flatMap patternLines := by
  induction ls with
  | nil => rfl
  | cons l ls ih => rw [storedText_cons, patternLines_append, ih, List.flatMap_cons]

/-- A comment has no patterns. -/
lemma IsComment.patternLines_eq {line : Text} (h : IsComment line) : patternLines line = [] := by
  obtain ⟨rest, rfl⟩ := h.exists_cons
  have hstrip : strip (.of '#' :: rest) = stripEnd (.of '#' :: rest) := rfl
  obtain ⟨more, hmore⟩ := stripEnd_mark (c := .of '#') (by decide) rest
  rw [patternLines, lines_eq_singleton (List.cons_ne_nil _ _) h.noBoundary, List.map_singleton,
    hstrip, hmore]
  rfl

/-- A pattern that is read from a line of its own as it was written. -/
structure IsPatternLine (pattern : Text) : Prop where
  /-- It is not empty. -/
  ne_nil : pattern ≠ []
  /-- There are no blanks at its ends. -/
  strip_eq : strip pattern = pattern
  /-- No line ends in it. -/
  noBoundary : pattern.any isLineBoundary = false
  /-- It is no comment. -/
  unmarked : pattern.head? ≠ some (.of '#')

instance (pattern : Text) : Decidable (IsPatternLine pattern) :=
  decidable_of_iff (pattern ≠ [] ∧ strip pattern = pattern ∧
      pattern.any isLineBoundary = false ∧ pattern.head? ≠ some (.of '#'))
    ⟨fun ⟨h₁, h₂, h₃, h₄⟩ => ⟨h₁, h₂, h₃, h₄⟩,
      fun h => ⟨h.ne_nil, h.strip_eq, h.noBoundary, h.unmarked⟩⟩

/-- Such a pattern is read as it was written. -/
lemma IsPatternLine.patternLines_eq {pattern : Text} (h : IsPatternLine pattern) :
    patternLines pattern = [pattern] := by
  rw [patternLines, lines_eq_singleton h.ne_nil h.noBoundary, List.map_singleton, h.strip_eq]
  exact List.filter_eq_self.2 (by simp [h.ne_nil, h.unmarked])

/-! ### The text of a preset -/

section Rendered

variable {name : Text} {patterns : List Text} {origin : Option Origin} {now : Timestamp}

/-- **What is loaded from the text of a preset**: what is read from its header, and then the
patterns that were saved. -/
theorem patternLines_render (h : ∀ p ∈ patterns, IsPatternLine p) :
    patternLines (unifyNewlines (render name patterns origin now)) =
      (header name origin now).flatMap patternLines ++ patterns := by
  have hstored : render name patterns origin now =
      storedText (header name origin now ++ [] :: patterns) := by
    simp [render, storedText]
  have hpatterns : patterns.flatMap patternLines = patterns :=
    (List.flatMap_congr fun p hp => (h p hp).patternLines_eq).trans (List.flatMap_singleton' _)
  have hunified : ∀ t, patternLines (unifyNewlines t) = patternLines t := fun t => by
    rw [patternLines, lines_unifyNewlines, patternLines]
  rw [hunified, hstored, patternLines_storedText, List.flatMap_append, List.flatMap_cons,
    patternLines_nil, List.nil_append, hpatterns]

/-- **Just the patterns that were saved are loaded** if and only if no pattern is read from a line
of the header. -/
theorem patternLines_render_iff (h : ∀ p ∈ patterns, IsPatternLine p) :
    patternLines (unifyNewlines (render name patterns origin now)) = patterns ↔
      ∀ l ∈ header name origin now, patternLines l = [] := by
  rw [patternLines_render h, List.append_left_eq_self, List.flatMap_eq_nil_iff]

/-- Nothing is read from a header that tells one line each. -/
lemma patternLines_header (hname : name.any isLineBoundary = false)
    (horigin : ∀ o ∈ origin, o.IsOneLine) :
    ∀ l ∈ header name origin now, patternLines l = [] := fun l hl =>
  (header_isComment hname horigin now l hl).patternLines_eq

end Rendered

end PresetFile

end GlobPreset
