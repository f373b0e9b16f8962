import GlobPreset.Preset.Header
import GlobPreset.Proofs.Collapse.Record
import GlobPreset.Proofs.Pattern.Stored
import GlobPreset.Proofs.Text.Encoding

/-!
# Reading preset files

What reading makes of the text of a preset. Its header is comments alone, as long as no line ends
in what they tell; so the text stands for the entries of its patterns.

## Main definitions

* `PresetFile.IsComment` — a line that is a comment.
* `PresetFile.Origin.IsOneLine` — no line ends in what is told about the origin of a preset.

## Main results

* `PresetFile.header_isComment` — **the header is comments alone**.
* `PresetFile.lines_render`, `PresetFile.parse_render` — the lines of the text, and what they stand
  for.
* `PresetFile.isEncodable_render` — which texts have no surrogates.
-/

set_option autoImplicit false

namespace GlobPreset

open Text PatternList

/-! ### Numbers and moments -/

namespace Text

/-- No line ends in a number. -/
lemma isLineBoundary_ofInt (n : Int) : (ofInt n).any isLineBoundary = false := by
  cases n with
  | ofNat n => exact isLineBoundary_ofNat n
  | negSucc n =>
    rw [ofInt, List.any_cons, isLineBoundary_ofNat]
    decide

/-- No line ends in a number with zeros in front. -/
lemma isLineBoundary_paddedNat (width n : Nat) :
    (paddedNat width n).any isLineBoundary = false := by
  rw [paddedNat, List.any_append, isLineBoundary_ofNat, Bool.or_false, List.any_eq_false]
  intro c hc
  rw [List.eq_of_mem_replicate hc]
  decide

end Text

/-- No line ends in a moment. -/
lemma Timestamp.isLineBoundary_toText (t : Timestamp) : t.toText.any isLineBoundary = false := by
  have hclock : ∀ h m, (clock h m).any isLineBoundary = false := by
    intro h m
    simp only [clock, List.any_append, List.any_cons, isLineBoundary_paddedNat]
    decide
  have hoffset : ((t.offset.map offsetText).getD []).any isLineBoundary = false := by
    cases t.offset with
    | none => rfl
    | some m =>
      simp only [Option.map_some, Option.getD_some, offsetText, List.any_cons, hclock,
        Bool.or_false]
      split <;> decide
  simp only [toText, List.any_append, List.any_cons, isLineBoundary_paddedNat, hclock, hoffset]
  decide

namespace PresetFile

/-! ### Comments -/

/-- A comment: a line with its mark in front. -/
structure IsComment (line : Text) : Prop where
  /-- It starts with the mark. -/
  marked : line.head? = some (.of '#')
  /-- No line ends in it. -/
  noBoundary : line.any isLineBoundary = false

/-- A comment starts with its mark. -/
lemma IsComment.exists_cons {line : Text} (h : IsComment line) :
    ∃ rest, line = .of '#' :: rest := by
  cases line with
  | nil => cases h.marked
  | cons c rest => exact ⟨rest, by rw [Option.some.inj h.marked]⟩

/-- A comment stands for nothing. -/
lemma IsComment.readLine?_eq {line : Text} (h : IsComment line) : readLine? line = none := by
  obtain ⟨rest, rfl⟩ := h.exists_cons
  obtain ⟨more, hmore⟩ := stripLine_mark (c := .of '#') (by decide) rest
  rw [readLine?, hmore]
  rfl

/-- No line ends in what is told about a compilation. -/
structure Summary.IsOneLine (s : Summary) : Prop where
  /-- Nor in the name of the level. -/
  level : s.level.any isLineBoundary = false
  /-- Nor in the techniques and their details. -/
  applied : ∀ a ∈ s.applied, a.1.any isLineBoundary = false ∧ a.2.any isLineBoundary = false

/-- No line ends in what is told about the origin of a preset. -/
structure Origin.IsOneLine (o : Origin) : Prop where
  /-- Nor in the description of the source. -/
  source : o.source.any isLineBoundary = false
  /-- Nor in what is told about the compilation. -/
  summary : ∀ s ∈ o.summary, s.IsOneLine

/-- The comments on a compilation are comments. -/
lemma Summary.IsOneLine.lines_isComment {s : Summary} (h : s.IsOneLine) :
    ∀ l ∈ s.lines, IsComment l := by
  have happlied : ∀ l ∈ s.applied.map
      (fun a => "#   - ".toText ++ a.1 ++ ": ".toText ++ a.2), IsComment l := by
    intro l hl
    obtain ⟨a, ha, rfl⟩ := List.mem_map.1 hl
    obtain ⟨hname, hdetails⟩ := h.applied a ha
    refine ⟨rfl, ?_⟩
    simp only [List.any_append, hname, hdetails]
    decide
  unfold Summary.lines
  rw [List.forall_mem_append, List.forall_mem_cons, List.forall_mem_cons]
  refine ⟨⟨⟨rfl, ?_⟩, ⟨rfl, ?_⟩, by simp⟩, ?_⟩
  · simp only [List.any_append, h.level]
    decide
  · simp only [List.any_append, isLineBoundary_ofInt]
    decide
  · split
    · simp
    · rw [List.forall_mem_cons]
      exact ⟨⟨rfl, by decide⟩, happlied⟩

/-- The comments on the origin of a preset are comments. -/
lemma Origin.IsOneLine.lines_isComment {o : Origin} (h : o.IsOneLine) :
    ∀ l ∈ o.lines, IsComment l := by
  unfold Origin.lines
  rw [List.forall_mem_append, List.forall_mem_append, List.forall_mem_append]
  refine ⟨⟨⟨?_, ?_⟩, ?_⟩, ?_⟩
  · split
    · simp
    · rw [List.forall_mem_singleton]
      refine ⟨rfl, ?_⟩
      simp only [List.any_append, h.source]
      decide
  · split
    · simp
    · rw [List.forall_mem_singleton]
      refine ⟨rfl, ?_⟩
      simp only [List.any_append, isLineBoundary_ofInt]
      decide
  · split
    · simp
    · rw [List.forall_mem_singleton]
      refine ⟨rfl, ?_⟩
      simp only [List.any_append, isLineBoundary_ofInt]
      decide
  · cases hs : o.summary with
    | none => simp
    | some s => exact (h.summary s hs).lines_isComment

/-- **The header is comments alone.** -/
theorem header_isComment {name : Text} (hname : name.any isLineBoundary = false)
    {origin : Option Origin} (horigin : ∀ o ∈ origin, o.IsOneLine) (now : Timestamp) :
    ∀ l ∈ header name origin now, IsComment l := by
  unfold header
  rw [List.forall_mem_cons, List.forall_mem_cons]
  refine ⟨⟨rfl, ?_⟩, ⟨rfl, ?_⟩, ?_⟩
  · simp only [List.any_append, hname]
    decide
  · simp only [List.any_append, now.isLineBoundary_toText]
    decide
  · cases ho : origin with
    | none => simp
    | some o => exact (horigin o ho).lines_isComment

/-! ### The text -/

section Rendered

variable {name : Text} {patterns : List Text} {origin : Option Origin} {now : Timestamp}

/-- The lines of the text of a preset. -/
lemma lines_render (hname : name.any isLineBoundary = false)
    (horigin : ∀ o ∈ origin, o.IsOneLine)
    (hpatterns : ∀ p ∈ patterns, p.any isLineBoundary = false) :
    lines (render name patterns origin now) = header name origin now ++ [] :: patterns := by
  have hstored : render name patterns origin now =
      storedText (header name origin now ++ [] :: patterns) := by
    simp [render, storedText]
  rw [hstored]
  refine lines_storedText (List.forall_mem_append.2 ⟨fun l hl => ?_, ?_⟩)
  · exact (header_isComment hname horigin now l hl).noBoundary
  · exact List.forall_mem_cons.2 ⟨rfl, hpatterns⟩

/-- Lines of the text of a preset end in line feeds alone. -/
lemma return_not_mem_render (hname : name.any isLineBoundary = false)
    (horigin : ∀ o ∈ origin, o.IsOneLine)
    (hpatterns : ∀ p ∈ patterns, p.any isLineBoundary = false) :
    .of '\r' ∉ render name patterns origin now := by
  have hline : ∀ l ∈ header name origin now ++ [] :: patterns, l.any isLineBoundary = false :=
    List.forall_mem_append.2 ⟨fun l hl => (header_isComment hname horigin now l hl).noBoundary,
      List.forall_mem_cons.2 ⟨rfl, hpatterns⟩⟩
  rw [render, List.mem_append, not_or]
  refine ⟨fun hmem => ?_, by decide⟩
  rcases mem_joinWith hmem with hmem | ⟨l, hl, hmem⟩
  · exact absurd hmem (by decide)
  · exact List.any_eq_false.1 (hline l hl) _ hmem (by decide)

/-- **The text of a preset stands for the entries of its patterns.** -/
theorem parse_render (hname : name.any isLineBoundary = false)
    (horigin : ∀ o ∈ origin, o.IsOneLine)
    (hpatterns : ∀ p ∈ patterns, p.any isLineBoundary = false) :
    parse (render name patterns origin now) = ofEntries (patterns.filterMap readLine?) := by
  have hheader : (header name origin now).filterMap readLine? = [] :=
    List.filterMap_eq_nil_iff.2 fun l hl => (header_isComment hname horigin now l hl).readLine?_eq
  rw [parse, lines_render hname horigin hpatterns, List.filterMap_append, hheader,
    List.filterMap_cons]
  rfl

end Rendered

/-! ### Surrogates -/

/-- A moment has no surrogates. -/
lemma isEncodable_timestamp (t : Timestamp) : t.toText.IsEncodable := by
  have hclock : ∀ h m, (Timestamp.clock h m).IsEncodable := fun h m => by
    simp [Timestamp.clock]
  have hoffset : ((t.offset.map Timestamp.offsetText).getD []).IsEncodable := by
    cases t.offset with
    | none => exact isEncodable_nil
    | some m =>
      refine isEncodable_cons.2 ⟨?_, hclock _ _⟩
      split <;> rfl
  simp [Timestamp.toText, hclock, hoffset]

/-- What is told about a compilation has no surrogates if there are none in its level and in the
rules that were applied. -/
lemma Summary.isEncodable_lines {s : Summary} :
    (∀ l ∈ s.lines, l.IsEncodable) ↔
      s.level.IsEncodable ∧ ∀ a ∈ s.applied, a.1.IsEncodable ∧ a.2.IsEncodable := by
  have hrules : (∀ l ∈ if s.applied.isEmpty then [] else "# Applied rules:".toText ::
      s.applied.map (fun a => "#   - ".toText ++ a.1 ++ ": ".toText ++ a.2), IsEncodable l) ↔
        ∀ a ∈ s.applied, a.1.IsEncodable ∧ a.2.IsEncodable := by
    split
    · rename_i hnone
      simp [List.isEmpty_iff.1 hnone]
    · simp only [List.forall_mem_cons, List.forall_mem_map, isEncodable_append, isEncodable_toText,
        true_and, and_true]
  rw [Summary.lines, List.forall_mem_append, hrules]
  simp

/-- What is told about the origin of a preset has no surrogates if there are none in the source and
in what is told about the compilation. -/
lemma Origin.isEncodable_lines {o : Origin} :
    (∀ l ∈ o.lines, l.IsEncodable) ↔
      o.source.IsEncodable ∧ ∀ s ∈ o.summary, ∀ l ∈ s.lines, l.IsEncodable := by
  have hsource : (∀ l ∈ if o.source.isEmpty then [] else ["# Source: ".toText ++ o.source],
      IsEncodable l) ↔ o.source.IsEncodable := by
    split
    · rename_i hnone
      simp [List.isEmpty_iff.1 hnone]
    · simp only [List.forall_mem_singleton, isEncodable_append, isEncodable_toText, true_and]
  have hcount : ∀ (n : Int) (what : Text), what.IsEncodable →
      ∀ l ∈ if n = 0 then [] else [what ++ ofInt n], IsEncodable l := by
    intro n what hwhat
    split
    · simp
    · simp [hwhat]
  have hsummary : (∀ l ∈ (o.summary.map Summary.lines).getD [], l.IsEncodable) ↔
      ∀ s ∈ o.summary, ∀ l ∈ s.lines, l.IsEncodable := by
    cases o.summary <;> simp
  rw [Origin.lines, List.forall_mem_append, List.forall_mem_append, List.forall_mem_append, hsource,
    hsummary, and_iff_left (hcount _ _ (isEncodable_toText _)),
    and_iff_left (hcount _ _ (isEncodable_toText _))]

/-- **The text of a preset has no surrogates** if there are none in its name, in what its header
tells about the origin, and in its patterns. -/
theorem isEncodable_render {name : Text} {patterns : List Text} {origin : Option Origin}
    {now : Timestamp} :
    (render name patterns origin now).IsEncodable ↔
      name.IsEncodable ∧ (∀ o ∈ origin, ∀ l ∈ o.lines, l.IsEncodable) ∧
        ∀ p ∈ patterns, p.IsEncodable := by
  have hfeed : IsEncodable [.of '\n'] := by decide
  have horigin : (∀ l ∈ (origin.map Origin.lines).getD [], l.IsEncodable) ↔
      ∀ o ∈ origin, ∀ l ∈ o.lines, l.IsEncodable := by
    cases origin <;> simp
  simp only [render, header, isEncodable_append, isEncodable_joinWith hfeed, List.forall_mem_append,
    List.forall_mem_cons, isEncodable_toText, isEncodable_timestamp, isEncodable_nil, horigin,
    hfeed, true_and, and_true, and_assoc]

end PresetFile

end GlobPreset
