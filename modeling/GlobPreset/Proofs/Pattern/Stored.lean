import GlobPreset.Emit.Order
import GlobPreset.Pattern.Parse
import GlobPreset.Proofs.Pattern.Spelled

/-!
# Stored lists

What reading a stored list makes of its lines. A line is kept whole if it starts with none of the
characters that reading looks for in front, and ends in no blank but an escaped space; the pattern
of an ordinary path is such a line.

## Main definitions

* `PatternList.KeepsEnd` — reading drops nothing from the end of the line.
* `PatternList.IsStored` — reading the pattern as a line gives the pattern.
* `PatternList.storedText` — patterns as a text, one a line.
* `PatternList.ofRaw` — the list of raw patterns.

## Main results

* `Text.lines_storedText` — the lines of a stored list are its patterns.
* `PatternList.parse_storedText` — reading a stored list gives its patterns and exclusions.
-/

set_option autoImplicit false

namespace GlobPreset

open Text

/-! ### Lines -/

namespace Text

/-- A character other than a carriage return ends a line, or goes on with it. -/
lemma lines_cons {c : CodePoint} (hc : c ≠ .of '\r') (t : Text) :
    lines (c :: t) = if isLineBoundary c then [] :: lines t else consLine c (lines t) := by
  rw [lines]
  exact fun _ hreturn => absurd hreturn hc

/-- A character that ends no line goes on with it. -/
lemma lines_cons_of_not {c : CodePoint} (hc : isLineBoundary c = false) (t : Text) :
    lines (c :: t) = consLine c (lines t) := by
  have hreturn : c ≠ .of '\r' := by
    rintro rfl
    exact absurd hc (by decide)
  rw [lines_cons hreturn, hc, if_neg Bool.false_ne_true]

/-- A line feed ends a line. -/
lemma lines_feed (t : Text) : lines (.of '\n' :: t) = [] :: lines t := by
  rw [lines_cons (by decide), if_pos (by decide)]

/-- A text up to its first line feed is a line. -/
lemma lines_append_feed {line : Text} (h : line.any isLineBoundary = false) (rest : Text) :
    lines (line ++ .of '\n' :: rest) = line :: lines rest := by
  induction line with
  | nil => exact lines_feed rest
  | cons c line ih =>
    rw [List.any_cons, Bool.or_eq_false_iff] at h
    rw [List.cons_append, lines_cons_of_not h.1, ih h.2]
    rfl

/-- A text in which no line ends is one line. -/
lemma lines_eq_singleton {line : Text} (hne : line ≠ []) (h : line.any isLineBoundary = false) :
    lines line = [line] := by
  induction line with
  | nil => exact absurd rfl hne
  | cons c line ih =>
    rw [List.any_cons, Bool.or_eq_false_iff] at h
    rw [lines_cons_of_not h.1]
    by_cases hline : line = []
    · subst hline
      rfl
    · rw [ih hline h.2]
      rfl

end Text

namespace PatternList

/-- Patterns as a text, one a line. -/
def storedText (patterns : List Text) : Text :=
  if patterns.isEmpty then [] else joinWith [.of '\n'] patterns ++ [.of '\n']

/-- The stored text of patterns starts with the first one and a line feed. -/
lemma storedText_cons (p : Text) (patterns : List Text) :
    storedText (p :: patterns) = p ++ .of '\n' :: storedText patterns := by
  cases patterns with
  | nil => rfl
  | cons q patterns => simp [storedText, joinWith]

/-- **The lines of a stored list are its patterns.** -/
lemma lines_storedText {patterns : List Text}
    (h : ∀ p ∈ patterns, p.any isLineBoundary = false) :
    lines (storedText patterns) = patterns := by
  induction patterns with
  | nil => rfl
  | cons p patterns ih =>
    rw [storedText_cons, lines_append_feed (h p List.mem_cons_self),
      ih fun q hq => h q (List.mem_cons_of_mem _ hq)]

/-! ### One line -/

/-- Reading drops nothing from the end of the line: there is no blank, or a space behind a single
backslash. -/
def KeepsEnd (line : Text) : Prop :=
  (∃ front c, line = front ++ [c] ∧ isBlank c = false) ∨
    ∃ front, line = front ++ [.of '\\', .of ' '] ∧ front.getLast? ≠ some (.of '\\')

/-- A line that keeps its end keeps it behind a text that does not end with a backslash. -/
lemma KeepsEnd.append {line : Text} (h : KeepsEnd line) {lead : Text}
    (hlead : lead.getLast? ≠ some (.of '\\')) : KeepsEnd (lead ++ line) := by
  obtain ⟨front, c, rfl, hc⟩ | ⟨front, rfl, hfront⟩ := h
  · exact .inl ⟨lead ++ front, c, (List.append_assoc ..).symm, hc⟩
  · refine .inr ⟨lead ++ front, (List.append_assoc ..).symm, ?_⟩
    rw [List.getLast?_append]
    cases hlast : front.getLast? with
    | none => exact hlead
    | some d =>
      rw [hlast] at hfront
      exact hfront

/-- Behind a text that ends with no backslash, the backslashes at the end are those of the last
part. -/
lemma endingBackslashes_append {front : Text} (h : front.getLast? ≠ some (.of '\\')) (t : Text) :
    endingBackslashes (front ++ t) = endingBackslashes t := by
  have hfront : front.reverse.takeWhile (· == .of '\\') = [] := by
    rw [← List.head?_reverse] at h
    cases hrev : front.reverse with
    | nil => rfl
    | cons c rest =>
      refine List.takeWhile_cons_of_neg fun hc => h ?_
      rw [hrev, List.head?_cons, beq_iff_eq.1 hc]
  rw [endingBackslashes, List.reverse_append, List.takeWhile_append]
  split
  · rename_i hall
    rw [hfront, List.append_nil, endingBackslashes, (List.takeWhile_prefix _).eq_of_length hall]
  · rw [endingBackslashes]

/-- A single backslash at the end is counted once. -/
lemma endingBackslashes_concat {front : Text} (h : front.getLast? ≠ some (.of '\\')) :
    endingBackslashes (front ++ [.of '\\']) = 1 :=
  endingBackslashes_append h [.of '\\']

/-- A line without blanks in front that keeps its end is kept. -/
lemma stripLine_eq_self {line : Text} (hhead : line.head?.any isBlank = false)
    (h : KeepsEnd line) : stripLine line = line := by
  have hstart : stripStart line = line := by
    cases line with
    | nil => rfl
    | cons c rest => exact List.dropWhile_cons_of_neg (by simpa using hhead)
  simp only [stripLine, hstart]
  obtain ⟨front, c, rfl, hc⟩ | ⟨front, rfl, hfront⟩ := h
  · have hend : stripEnd (front ++ [c]) = front ++ [c] :=
      dropEndWhile_eq_self fun d hd => by
        obtain rfl : c = d := by simpa using hd
        exact hc
    simp [hend]
  · -- the space is dropped first, and the backslash in front of it puts it back
    have hend : stripEnd (front ++ [.of '\\', .of ' ']) = front ++ [.of '\\'] := by
      rw [stripEnd, dropEndWhile_eq_rdropWhile, show front ++ [.of '\\', .of ' '] =
        (front ++ [.of '\\']) ++ [.of ' '] by simp, List.rdropWhile_concat_pos _ _ _ (by decide),
        List.rdropWhile_concat_neg _ _ _ (by decide)]
    simp [hend, endingBackslashes_concat hfront]

/-- Dropping blanks from the end keeps a mark in front. -/
lemma stripEnd_mark {c : CodePoint} (hc : isBlank c = false) (rest : Text) :
    ∃ more, stripEnd (c :: rest) = c :: more := by
  rw [stripEnd, dropEndWhile_eq_rdropWhile]
  have hne : (c :: rest).rdropWhile isBlank ≠ [] := by
    rw [ne_eq, List.rdropWhile_eq_nil_iff]
    intro hall
    rw [hall c List.mem_cons_self] at hc
    cases hc
  obtain ⟨d, more, hmore⟩ := List.exists_cons_of_ne_nil hne
  have hlead := List.rdropWhile_prefix isBlank (c :: rest)
  rw [hmore, List.cons_prefix_cons] at hlead
  exact ⟨more, by rw [hmore, hlead.1]⟩

/-- Dropping blanks from the edges of a line keeps a mark in front. -/
lemma stripLine_mark {c : CodePoint} (hc : isBlank c = false) (rest : Text) :
    ∃ more, stripLine (c :: rest) = c :: more := by
  have hstart : stripStart (c :: rest) = c :: rest := List.dropWhile_cons_of_neg (by simp [hc])
  obtain ⟨more, hmore⟩ := stripEnd_mark hc rest
  simp only [stripLine, hstart, hmore]
  split
  · exact ⟨more ++ [.of ' '], rfl⟩
  · exact ⟨more, rfl⟩

/-- A pattern that reading as a line gives back. -/
structure IsStored (pattern : Text) : Prop where
  /-- No line ends in it. -/
  noBoundary : pattern.any isLineBoundary = false
  /-- It starts with no mark and no blank. -/
  starts : ∃ c rest, pattern = c :: rest ∧ Pattern.needsLeadEscape c = false
  /-- It does not start with `./`. -/
  noDots : ¬ [.of '.', .of '/'] <+: pattern
  /-- Its end is kept. -/
  keepsEnd : KeepsEnd pattern

namespace IsStored

variable {pattern : Text}

/-- A stored pattern does not start with a character that is escaped there. -/
lemma head?_ne (h : IsStored pattern) {c : CodePoint} (hc : Pattern.needsLeadEscape c = true) :
    pattern.head? ≠ some c := by
  obtain ⟨d, rest, rfl, hd⟩ := h.starts
  intro heq
  obtain rfl : d = c := by simpa using heq
  rw [hc] at hd
  cases hd

/-- A stored pattern does not start with `./`. -/
lemma dropDotSlash_eq (h : IsStored pattern) : Path.dropDotSlash pattern = pattern := by
  unfold Path.dropDotSlash
  split
  · exact absurd ⟨_, rfl⟩ h.noDots
  · rfl

/-- A stored pattern has no blanks at its ends. -/
lemma stripLine_eq (h : IsStored pattern) : stripLine pattern = pattern := by
  refine stripLine_eq_self ?_ h.keepsEnd
  obtain ⟨c, rest, rfl, hc⟩ := h.starts
  simp only [Pattern.needsLeadEscape, Bool.or_eq_false_iff] at hc
  exact hc.2

/-- A stored pattern is read as one that selects. -/
lemma readLine?_eq (h : IsStored pattern) : readLine? pattern = some (.selects pattern) := by
  unfold readLine?
  rw [h.stripLine_eq]
  split
  · obtain ⟨c, rest, hcons, -⟩ := h.starts
    cases hcons
  · exact absurd rfl (h.head?_ne (c := .of '#') (by decide))
  · exact absurd rfl (h.head?_ne (c := .of '!') (by decide))
  · rw [h.dropDotSlash_eq]

/-- With a mark in front it is read as one that rejects. -/
lemma readLine?_mark (h : IsStored pattern) :
    readLine? (.of '!' :: pattern) = some (.rejects pattern) := by
  have hstrip : stripLine (.of '!' :: pattern) = .of '!' :: pattern :=
    stripLine_eq_self rfl
      (h.keepsEnd.append (by decide : ([.of '!'] : Text).getLast? ≠ some (.of '\\')))
  obtain ⟨c, rest, hcons, -⟩ := h.starts
  rw [readLine?, hstrip]
  simp only [h.stripLine_eq, h.dropDotSlash_eq]
  simp [hcons]

end IsStored

/-! ### Literal paths -/

section Literal

open GlobPreset.Path

variable {path : Text}

/-- A pattern that starts with a spelling of a tame path does not start with `./`. -/
lemma not_dotSlash_spelled {s : Text} (h : Pattern.Spells s path) (hpath : IsTame path)
    (tail : Text) : ¬ [.of '.', .of '/'] <+: s ++ tail := by
  rintro ⟨rest, heq⟩
  have hdot : [.of '.'] ∉ segments path := fun hmem => (hpath.segment_spec hmem).2.1 rfl
  cases h with
  | nil => exact hpath.ne_nil rfl
  | escaped _ h => cases heq
  | plain _ h =>
    injection heq with hc heq
    subst hc
    cases h with
    | nil => exact hdot List.mem_cons_self
    | escaped _ h => cases heq
    | @plain c s t _ h =>
      injection heq with hc heq
      subst hc
      refine hdot ?_
      rw [show .of '.' :: .of '/' :: t = [.of '.'] ++ .of '/' :: t from rfl, segments_append_slash]
      exact List.mem_cons_self

/-- No line ends in the pattern of a path in which none ends. -/
lemma noBoundary_escapeLiteral (hpath : path.any isLineBoundary = false) :
    (Pattern.escapeLiteral path).any isLineBoundary = false := by
  rw [List.any_eq_false]
  intro c hc
  rcases (Pattern.spells_escapeLiteral path).mem_or hc with hc | rfl
  · exact List.any_eq_false.1 hpath c hc
  · decide

/-- A pattern that starts with a literal path is stored as it is, if its ends are kept. -/
lemma isStored_append {tail : Text} (hne : path ≠ []) (hpath : path.any isLineBoundary = false)
    (htail : tail.any isLineBoundary = false)
    (hdots : ¬ [.of '.', .of '/'] <+: Pattern.escapeLiteral path ++ tail)
    (hends : KeepsEnd (Pattern.escapeLiteral path ++ tail)) :
    IsStored (Pattern.escapeLiteral path ++ tail) where
  noBoundary := by
    rw [List.any_append, htail, Bool.or_false, noBoundary_escapeLiteral hpath]
  starts := by
    obtain ⟨c, rest, hs⟩ := List.exists_cons_of_ne_nil
      ((Pattern.spells_escapeLiteral path).ne_nil hne)
    refine ⟨c, rest ++ tail, by rw [hs]; rfl, ?_⟩
    exact (Pattern.head?_escapeLiteral (by rw [hs]; rfl)).1
  noDots := hdots
  keepsEnd := hends

/-- A pattern that starts with a tame path is stored as it is, if its end is kept. -/
lemma isStored_literal (hpath : IsTame path) {tail : Text}
    (htail : tail.any isLineBoundary = false)
    (hends : KeepsEnd (Pattern.escapeLiteral path ++ tail)) :
    IsStored (Pattern.escapeLiteral path ++ tail) :=
  isStored_append hpath.ne_nil hpath.noBoundary htail
    (not_dotSlash_spelled (Pattern.spells_escapeLiteral path) hpath tail) hends

/-- The end of a path is kept by its pattern, unless it is a blank other than a space. -/
lemma keepsEnd_escapeLiteral (hne : path ≠ []) (hback : .of '\\' ∉ path)
    (hends : path.getLast?.any (fun c => isBlank c && c != .of ' ') = false) :
    KeepsEnd (Pattern.escapeLiteral path) := by
  obtain ⟨front, c, rfl⟩ := List.eq_nil_or_concat' path |>.resolve_left hne
  obtain ⟨x, hx, hspace⟩ := Pattern.escapeLiteral_concat front c
  rw [hx]
  by_cases hc : c = .of ' '
  · obtain ⟨y, hy, rfl⟩ := hspace hc
    refine .inr ⟨y, by simp [hc], ?_⟩
    rw [hy.getLast?_eq]
    intro hlast
    exact hback (List.mem_append_left _ (List.mem_of_getLast? hlast))
  · rw [List.getLast?_concat] at hends
    exact .inl ⟨x, c, rfl, by simpa [hc] using hends⟩

/-- The pattern of an ordinary path is stored as it is. -/
lemma isStored_escapeLiteral (hpath : IsOrdinary path) :
    IsStored (Pattern.escapeLiteral path) := by
  have hends := keepsEnd_escapeLiteral hpath.ne_nil hpath.noBackslash hpath.endsPlain
  have hstored : IsStored (Pattern.escapeLiteral path ++ []) :=
    isStored_literal hpath.toIsTame rfl (by rwa [List.append_nil])
  rwa [List.append_nil] at hstored

end Literal

/-! ### Lists -/

/-- The list of entries that include something or exclude nothing. -/
lemma ofEntries_eq {entries : List Entry}
    (h : entries.filterMap Entry.selected? ≠ [] ∨ entries.filterMap Entry.rejected? = []) :
    ofEntries entries =
      ⟨entries.filterMap Entry.selected?, entries.filterMap Entry.rejected?⟩ := by
  unfold ofEntries
  dsimp only
  rcases h with h | h
  · simp [List.isEmpty_eq_false_iff.2 h]
  · simp [h]

/-- What is selected by lines is what one of them is read as. -/
lemma mem_selected {lines : List Text} {p : Text} :
    p ∈ (lines.filterMap readLine?).filterMap Entry.selected? ↔
      ∃ l ∈ lines, readLine? l = some (.selects p) := by
  simp only [List.filterMap_filterMap, List.mem_filterMap, Option.bind_eq_some_iff]
  refine exists_congr fun l => and_congr_right fun _ => ⟨?_, fun h => ⟨_, h, rfl⟩⟩
  rintro ⟨entry, hentry, hselected⟩
  cases entry with
  | selects q =>
    cases hselected
    exact hentry
  | rejects q => cases hselected

/-- What is rejected by lines is what one of them is read as. -/
lemma mem_rejected {lines : List Text} {x : Text} :
    x ∈ (lines.filterMap readLine?).filterMap Entry.rejected? ↔
      ∃ l ∈ lines, readLine? l = some (.rejects x) := by
  simp only [List.filterMap_filterMap, List.mem_filterMap, Option.bind_eq_some_iff]
  refine exists_congr fun l => and_congr_right fun _ => ⟨?_, fun h => ⟨_, h, rfl⟩⟩
  rintro ⟨entry, hentry, hrejected⟩
  cases entry with
  | selects q => cases hrejected
  | rejects q =>
    cases hrejected
    exact hentry

/-- The list of raw patterns: an exclusion has a mark in front. -/
def ofRaw (patterns : List Text) : PatternList :=
  ⟨patterns.filter (fun p => !isExcluded p), (patterns.filter isExcluded).map (·.drop 1)⟩

/-- A first pattern is one of the excluded ones if it starts with the mark, and else one of the
others. -/
lemma ofRaw_cons (p : Text) (patterns : List Text) :
    ofRaw (p :: patterns) =
      if isExcluded p then ⟨(ofRaw patterns).includes, p.drop 1 :: (ofRaw patterns).excludes⟩
      else ⟨p :: (ofRaw patterns).includes, (ofRaw patterns).excludes⟩ := by
  rw [ofRaw, List.filter_cons, List.filter_cons]
  cases isExcluded p <;> rfl

/-- A line of a stored list: a stored pattern, or a mark with one behind it. -/
def IsStoredLine (line : Text) : Prop :=
  IsStored line ∨ ∃ pattern, line = .of '!' :: pattern ∧ IsStored pattern

/-- What a stored line stands for. -/
def rawEntry (line : Text) : Entry :=
  if isExcluded line then .rejects (line.drop 1) else .selects line

/-- A stored pattern is no exclusion. -/
lemma IsStored.isExcluded_eq {pattern : Text} (h : IsStored pattern) :
    isExcluded pattern = false := by
  simpa [isExcluded] using h.head?_ne (c := .of '!') (by decide)

/-- No line ends in a stored line. -/
lemma IsStoredLine.noBoundary {line : Text} (h : IsStoredLine line) :
    line.any isLineBoundary = false := by
  obtain h | ⟨pattern, rfl, h⟩ := h
  · exact h.noBoundary
  · rw [List.any_cons, h.noBoundary]
    decide

/-- A stored line is read as the entry that it was written for. -/
lemma IsStoredLine.readLine?_eq {line : Text} (h : IsStoredLine line) :
    readLine? line = some (rawEntry line) := by
  obtain h | ⟨pattern, rfl, h⟩ := h
  · rw [h.readLine?_eq, rawEntry, h.isExcluded_eq]
    rfl
  · rw [h.readLine?_mark]
    rfl

/-- The patterns that are selected are those without the mark. -/
lemma filterMap_selected? (patterns : List Text) :
    (patterns.map rawEntry).filterMap Entry.selected? = (ofRaw patterns).includes := by
  induction patterns with
  | nil => rfl
  | cons p patterns ih =>
    rw [List.map_cons, List.filterMap_cons, ih, rawEntry, ofRaw_cons]
    cases isExcluded p <;> rfl

/-- The patterns that are rejected are those with the mark. -/
lemma filterMap_rejected? (patterns : List Text) :
    (patterns.map rawEntry).filterMap Entry.rejected? = (ofRaw patterns).excludes := by
  induction patterns with
  | nil => rfl
  | cons p patterns ih =>
    rw [List.map_cons, List.filterMap_cons, ih, rawEntry, ofRaw_cons]
    cases isExcluded p <;> rfl

/-- The entries of stored lines. -/
lemma filterMap_readLine? {lines : List Text} (h : ∀ l ∈ lines, IsStoredLine l) :
    lines.filterMap readLine? = lines.map rawEntry := by
  rw [← List.filterMap_eq_map]
  exact List.filterMap_congr fun l hl => (h l hl).readLine?_eq

/-- **Stored lines stand for their patterns and exclusions**, provided that they include something
or there are none. -/
lemma ofEntries_readLine? {patterns : List Text} (h : ∀ p ∈ patterns, IsStoredLine p)
    (hincludes : patterns = [] ∨ (ofRaw patterns).includes ≠ []) :
    ofEntries (patterns.filterMap readLine?) = ofRaw patterns := by
  have hplain : (patterns.map rawEntry).filterMap Entry.selected? ≠ [] ∨
      (patterns.map rawEntry).filterMap Entry.rejected? = [] := by
    rw [filterMap_selected?]
    exact hincludes.symm.imp_right fun hnil => by rw [hnil]; rfl
  rw [filterMap_readLine? h, ofEntries_eq hplain, filterMap_selected?, filterMap_rejected?]

/-- **Reading a stored list gives its patterns and exclusions**, provided that it includes
something or is empty. -/
theorem parse_storedText {patterns : List Text} (h : ∀ p ∈ patterns, IsStoredLine p)
    (hincludes : patterns = [] ∨ (ofRaw patterns).includes ≠ []) :
    parse (storedText patterns) = ofRaw patterns := by
  rw [parse, lines_storedText fun p hp => (h p hp).noBoundary, ofEntries_readLine? h hincludes]

end PatternList

end GlobPreset
