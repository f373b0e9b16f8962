import GlobPreset.Expand
import GlobPreset.Proofs.FileSystem.Memory
import GlobPreset.Proofs.Preset.Reading
import GlobPreset.Proofs.Selection.Normal

/-!
# The two readers of a preset file

The text of a preset is read in two ways: loading takes the patterns of its lines, and expanding
parses it. Loading drops every blank at the edges of a line, while parsing keeps a space that a
backslash escapes. So what was loaded and is saved again stands for the same as before exactly if no
line ends with such a space.

## Main definitions

* `PatternList.LosesSpace` — loading a line drops an escaped space.
* `PatternList.Entry.Alike` — two lines stand for entries of one kind, if for any.

## Main results

* `PatternList.LosesSpace.readLine?_eq` — **a line that loses its space** stands for a pattern
  without it.
* `PresetFile.parse_patternLines_iff` — **when what is loaded stands for the same** as the text.
* `PresetFile.parse_saved_iff` — when it does after it was saved again.
* `PresetFile.not_expandText_patternLines` — a preset that loading and saving makes unreadable.
-/

set_option autoImplicit false

namespace GlobPreset

open Text

/-! ### Texts -/

namespace Text

/-- No line ends inside of a line. -/
lemma noBoundary_of_mem_lines (t : Text) : ∀ l ∈ lines t, l.any isLineBoundary = false := by
  fun_induction lines t with
  | case1 => exact fun l hl => absurd hl List.not_mem_nil
  | case2 rest ih => exact List.forall_mem_cons.2 ⟨rfl, ih⟩
  | case3 c rest _ hc ih => exact List.forall_mem_cons.2 ⟨rfl, ih⟩
  | case4 c rest _ hc ih =>
    have hc : isLineBoundary c = false := by simpa using hc
    cases hrest : lines rest with
    | nil => exact List.forall_mem_singleton.2 (by rw [List.any_cons, hc]; rfl)
    | cons first more =>
      rw [hrest, List.forall_mem_cons] at ih
      exact List.forall_mem_cons.2 ⟨by rw [List.any_cons, hc, ih.1]; rfl, ih.2⟩

/-- Glued with line feeds, lines that are not empty are cut apart again. -/
lemma lines_joinWith {ls : List Text} (h : ∀ l ∈ ls, l ≠ [] ∧ l.any isLineBoundary = false) :
    lines (joinWith [.of '\n'] ls) = ls := by
  induction ls with
  | nil => rfl
  | cons l ls ih =>
    rw [List.forall_mem_cons] at h
    cases ls with
    | nil => exact lines_eq_singleton h.1.1 h.1.2
    | cons next ls =>
      rw [joinWith, List.append_assoc, List.singleton_append, lines_append_feed h.1.2, ih h.2]

/-- Dropping blanks leaves a part of the text. -/
lemma strip_isInfix (t : Text) : strip t <:+: t := by
  rw [strip, dropAround, dropEndWhile_eq_rdropWhile]
  exact (List.rdropWhile_prefix isBlank _).isInfix.trans (List.dropWhile_suffix _).isInfix

/-- A text without blanks in front keeps its start when those at its end are dropped. -/
lemma head?_stripEnd {t : Text} (h : t.head?.any isBlank = false) :
    (stripEnd t).head? = t.head? := by
  cases t with
  | nil => rfl
  | cons c rest =>
    obtain ⟨more, hmore⟩ := PatternList.stripEnd_mark (by simpa using h) rest
    rw [hmore]
    rfl

/-- There is no blank in front once the blanks there are dropped. -/
lemma head?_stripStart (t : Text) : (stripStart t).head?.any isBlank = false := by
  rw [stripStart]
  cases hstart : t.dropWhile isBlank with
  | nil => rfl
  | cons c rest =>
    have hhead := List.head?_dropWhile_not isBlank t
    rw [hstart] at hhead
    simpa using hhead

/-- There is no blank in front of what is left. -/
lemma head?_strip (t : Text) : (strip t).head?.any isBlank = false := by
  change (stripEnd (stripStart t)).head?.any isBlank = false
  rw [head?_stripEnd (head?_stripStart t), head?_stripStart]

/-- There is no blank behind it. -/
lemma getLast?_strip (t : Text) : (strip t).getLast?.any isBlank = false := by
  rcases List.eq_nil_or_concat' (strip t) with hnil | ⟨front, c, hc⟩
  · rw [hnil]
    rfl
  · rw [hc, List.getLast?_concat, Option.any_some]
    rw [strip, dropAround, dropEndWhile_eq_rdropWhile] at hc
    have hne : (t.dropWhile isBlank).rdropWhile isBlank ≠ [] := by simp [hc]
    have hlast := List.rdropWhile_last_not isBlank (t.dropWhile isBlank) hne
    simpa only [hc, List.getLast_concat, Bool.not_eq_true] using hlast

/-- Blanks are dropped up to the first character that is none. -/
lemma stripStart_append_cons {c : CodePoint} (hc : isBlank c = false) (front rest : Text) :
    stripStart (front ++ c :: rest) = stripStart front ++ c :: rest := by
  have hcons : (c :: rest).dropWhile isBlank = c :: rest :=
    List.dropWhile_cons_of_neg (by simp [hc])
  rw [stripStart, List.dropWhile_append, hcons]
  split
  · rename_i hempty
    rw [stripStart, List.isEmpty_iff.1 hempty, List.nil_append]
  · rw [stripStart]

end Text

/-- What follows `./` may go on with a space. -/
lemma Path.dropDotSlash_concat_space (path : Text) :
    dropDotSlash (path ++ [.of ' ']) = dropDotSlash path ++ [.of ' '] := by
  fun_induction dropDotSlash path with
  | case1 rest ih => exact ih
  | case2 path hno =>
    unfold dropDotSlash
    split
    · rename_i rest heq
      rcases path with _ | ⟨c, _ | ⟨d, path⟩⟩
      · cases heq
      · cases heq
      · injection heq with hc heq
        injection heq with hd heq
        exact absurd (by rw [hc, hd]) (hno path)
    · rfl

namespace PatternList

/-! ### One line -/

/-- What is loaded of a line is a line of which nothing is dropped. -/
lemma stripLine_strip (raw : Text) : stripLine (strip raw) = strip raw := by
  rcases List.eq_nil_or_concat' (strip raw) with hnil | ⟨front, c, hc⟩
  · rw [hnil]
    rfl
  · refine stripLine_eq_self (head?_strip raw) (.inl ⟨front, c, hc, ?_⟩)
    have hlast := getLast?_strip raw
    rw [hc, List.getLast?_concat] at hlast
    exact hlast

/-- **The readers differ by a space**, and that only behind an odd run of backslashes. -/
lemma stripLine_eq_or (raw : Text) :
    stripLine raw = strip raw ∨
      stripLine raw = strip raw ++ [.of ' '] ∧ endingBackslashes (strip raw) % 2 = 1 := by
  have hstrip : strip raw = stripEnd (stripStart raw) := rfl
  simp only [stripLine, ← hstrip]
  split
  · rename_i hkept
    rw [Bool.and_eq_true, beq_iff_eq] at hkept
    exact .inr ⟨rfl, hkept.1⟩
  · exact .inl rfl

/-- Loading the line drops an escaped space from it. -/
def LosesSpace (raw : Text) : Prop :=
  (strip raw).head? ≠ some (.of '#') ∧ stripLine raw = strip raw ++ [.of ' ']

instance (raw : Text) : Decidable (LosesSpace raw) := inferInstanceAs (Decidable (_ ∧ _))

/-- An odd run of backslashes at the end has a last one. -/
lemma exists_concat_of_odd {t : Text} (h : endingBackslashes t % 2 = 1) :
    ∃ front, t = front ++ [.of '\\'] := by
  rcases List.eq_nil_or_concat' t with rfl | ⟨front, c, rfl⟩
  · cases h
  · by_cases hc : c = .of '\\'
    · exact ⟨front, by rw [hc]⟩
    · simp [endingBackslashes, hc] at h

/-- Dropping blanks from the end stops at the last character that is none. -/
lemma stripEnd_concat {c : CodePoint} (hc : isBlank c = false) (front : Text) :
    stripEnd (front ++ [c]) = front ++ [c] := by
  refine dropEndWhile_eq_self fun d hd => ?_
  obtain rfl : c = d := by simpa using hd
  exact hc

/-- A line that ends with no blank is kept behind the blanks in front. -/
lemma stripLine_concat {c : CodePoint} (hc : isBlank c = false) (front : Text) :
    stripLine (front ++ [c]) = stripStart front ++ [c] := by
  simp [stripLine, stripStart_append_cons hc, stripEnd_concat hc]

/-- A space behind an odd run of backslashes is kept, and is all that is added. -/
lemma stripLine_concat_space {t : Text} (h : endingBackslashes t % 2 = 1) :
    stripLine (t ++ [.of ' ']) = stripLine t ++ [.of ' '] := by
  obtain ⟨front, rfl⟩ := exists_concat_of_odd h
  have hback : isBlank (.of '\\') = false := by decide
  have hstart : stripStart (front ++ [.of '\\'] ++ [.of ' ']) =
      stripStart front ++ [.of '\\'] ++ [.of ' '] := by
    rw [List.append_assoc, List.singleton_append, stripStart_append_cons hback, List.append_assoc]
    rfl
  have hend : stripEnd (stripStart front ++ [.of '\\'] ++ [.of ' ']) =
      stripStart front ++ [.of '\\'] := by
    rw [stripEnd, dropEndWhile_eq_rdropWhile, List.rdropWhile_concat_pos _ _ _ (by decide),
      ← dropEndWhile_eq_rdropWhile]
    exact stripEnd_concat hback _
  -- the blanks that are dropped in front are no backslashes
  have hodd : endingBackslashes (stripStart front ++ [.of '\\']) % 2 = 1 := by
    have hsplit : front.takeWhile isBlank ++ (stripStart front ++ [.of '\\']) =
        front ++ [.of '\\'] := by
      rw [← List.append_assoc, stripStart, List.takeWhile_append_dropWhile]
    have hblanks : (front.takeWhile isBlank).getLast? ≠ some (.of '\\') := by
      intro hlast
      have hblank := List.mem_takeWhile_imp (List.mem_of_getLast? hlast)
      rw [hback] at hblank
      cases hblank
    rwa [← endingBackslashes_append hblanks, hsplit]
  rw [stripLine_concat hback]
  simp only [stripLine, hstart, hend, List.drop_left, hodd]
  rfl

/-- **A line that loses its space** stands for a pattern without it. -/
lemma LosesSpace.readLine?_eq {raw : Text} (h : LosesSpace raw) :
    ∃ p, readLine? (strip raw) = some (.selects p) ∧
      readLine? raw = some (.selects (p ++ [.of ' '])) ∨
      readLine? (strip raw) = some (.rejects p) ∧
        readLine? raw = some (.rejects (p ++ [.of ' '])) := by
  obtain ⟨hmark, hkeeps⟩ := h
  have hodd : endingBackslashes (strip raw) % 2 = 1 := by
    rcases stripLine_eq_or raw with hsame | ⟨-, hodd⟩
    · rw [hsame] at hkeeps
      simp at hkeeps
    · exact hodd
  rw [readLine?, readLine?, stripLine_strip, hkeeps]
  generalize strip raw = line at hmark hodd
  cases line with
  | nil => cases hodd
  | cons c rest =>
    have hnote : c ≠ .of '#' := by simpa using hmark
    by_cases hc : c = .of '!'
    · subst hc
      have hrest : endingBackslashes rest % 2 = 1 := by
        rwa [← endingBackslashes_append
          (by decide : List.getLast? [CodePoint.of '!'] ≠ some (.of '\\'))]
      obtain ⟨front, rfl⟩ := exists_concat_of_odd hrest
      refine ⟨Path.dropDotSlash (stripLine (front ++ [.of '\\'])), .inr ⟨?_, ?_⟩⟩
      · simp [stripLine_concat (by decide : isBlank (.of '\\') = false)]
      · have hne : stripLine (front ++ [.of '\\'] ++ [.of ' ']) ≠ [] := by
          rw [stripLine_concat_space hrest]
          exact List.concat_ne_nil _ _
        rw [← Path.dropDotSlash_concat_space, ← stripLine_concat_space hrest]
        simpa using hne
    · refine ⟨Path.dropDotSlash (c :: rest), .inl ⟨?_, ?_⟩⟩
      · split <;> simp_all
      · rw [← Path.dropDotSlash_concat_space, List.cons_append]
        split <;> simp_all

/-- A line that loses none stands for the same once it was loaded. -/
lemma readLine?_strip {raw : Text} (h : ¬ LosesSpace raw) :
    readLine? (strip raw) = readLine? raw := by
  have hstripped := stripLine_strip raw
  rcases stripLine_eq_or raw with hsame | ⟨hkeeps, -⟩
  · rw [readLine?, readLine?, hstripped, hsame]
  · -- the line is a comment
    have hmark : (strip raw).head? = some (.of '#') := by
      by_contra hmark
      exact h ⟨hmark, hkeeps⟩
    rw [readLine?, readLine?, hstripped, hkeeps]
    obtain ⟨rest, hrest⟩ := List.head?_eq_some_iff.1 hmark
    rw [hrest]
    rfl

/-- **A line stands for the same once it was loaded** unless it loses a space. -/
theorem readLine?_strip_eq_iff (raw : Text) :
    readLine? (strip raw) = readLine? raw ↔ ¬ LosesSpace raw := by
  refine ⟨fun heq h => ?_, readLine?_strip⟩
  obtain ⟨p, ⟨hloaded, hread⟩ | ⟨hloaded, hread⟩⟩ := h.readLine?_eq
  · rw [hloaded, hread] at heq
    simp at heq
  · rw [hloaded, hread] at heq
    simp at heq

/-! ### Lists of entries -/

/-- Two lines stand for entries of one kind, if for any. -/
inductive Entry.Alike : Option Entry → Option Entry → Prop
  /-- Neither stands for anything. -/
  | none : Alike none none
  /-- Both select. -/
  | selects (p q : Text) : Alike (some (.selects p)) (some (.selects q))
  /-- Both reject. -/
  | rejects (p q : Text) : Alike (some (.rejects p)) (some (.rejects q))

/-- An entry is like itself. -/
lemma Entry.Alike.refl (entry : Option Entry) : Alike entry entry :=
  match entry with
  | Option.none => .none
  | some (.selects p) => .selects p p
  | some (.rejects p) => .rejects p p

/-- What is loaded of a line is of the kind of the line. -/
lemma alike_strip (raw : Text) : Entry.Alike (readLine? (strip raw)) (readLine? raw) := by
  by_cases h : LosesSpace raw
  · obtain ⟨p, ⟨hloaded, hread⟩ | ⟨hloaded, hread⟩⟩ := h.readLine?_eq
    · rw [hloaded, hread]
      exact .selects _ _
    · rw [hloaded, hread]
      exact .rejects _ _
  · rw [readLine?_strip h]
    exact .refl _

section Alike

variable {f g : Text → Option Entry} {ls : List Text} (h : ∀ l ∈ ls, Entry.Alike (f l) (g l))
include h

/-- Lists of one kind include as many patterns. -/
lemma length_selected :
    ((ls.filterMap f).filterMap Entry.selected?).length =
      ((ls.filterMap g).filterMap Entry.selected?).length := by
  induction ls with
  | nil => rfl
  | cons l ls ih =>
    rw [List.forall_mem_cons] at h
    have hl := h.1
    rw [List.filterMap_cons, List.filterMap_cons]
    generalize f l = x, g l = y at hl
    cases hl with
    | none => exact ih h.2
    | selects p q => exact congrArg (· + 1) (ih h.2)
    | rejects p q => exact ih h.2

/-- Lists of one kind that have the same patterns have the same entries. -/
lemma eq_of_selected_of_rejected
    (hselected : (ls.filterMap f).filterMap Entry.selected? =
      (ls.filterMap g).filterMap Entry.selected?)
    (hrejected : (ls.filterMap f).filterMap Entry.rejected? =
      (ls.filterMap g).filterMap Entry.rejected?) : ∀ l ∈ ls, f l = g l := by
  induction ls with
  | nil => exact fun l hl => absurd hl List.not_mem_nil
  | cons l ls ih =>
    rw [List.forall_mem_cons] at h ⊢
    have hl := h.1
    rw [List.filterMap_cons, List.filterMap_cons] at hselected hrejected
    generalize f l = x, g l = y at hl hselected hrejected
    cases hl with
    | none => exact ⟨rfl, ih h.2 hselected hrejected⟩
    | selects p q =>
      obtain ⟨rfl, hrest⟩ := List.cons.inj hselected
      exact ⟨rfl, ih h.2 hrest hrejected⟩
    | rejects p q =>
      obtain ⟨rfl, hrest⟩ := List.cons.inj hrejected
      exact ⟨rfl, ih h.2 hselected hrest⟩

/-- **Lists of one kind are the same** exactly if their entries are. -/
lemma ofEntries_eq_iff :
    ofEntries (ls.filterMap f) = ofEntries (ls.filterMap g) ↔ ∀ l ∈ ls, f l = g l := by
  refine ⟨fun heq => ?_, fun heq => by rw [List.filterMap_congr heq]⟩
  have hlength := length_selected h
  unfold ofEntries at heq
  dsimp only at heq
  rw [PatternList.mk.injEq] at heq
  obtain ⟨hincludes, hexcludes⟩ := heq
  refine eq_of_selected_of_rejected h ?_ hexcludes
  -- either both lists include nothing, or no list is read as including everything
  by_cases hnil : (ls.filterMap f).filterMap Entry.selected? = []
  · rw [hnil] at hlength ⊢
    exact (List.eq_nil_of_length_eq_zero hlength.symm).symm
  · have hnil' : (ls.filterMap g).filterMap Entry.selected? ≠ [] := by
      intro hnil'
      rw [hnil'] at hlength
      exact hnil (List.eq_nil_of_length_eq_zero hlength)
    simpa only [List.isEmpty_eq_false_iff.2 hnil, List.isEmpty_eq_false_iff.2 hnil',
      Bool.false_and, if_neg Bool.false_ne_true] using hincludes

end Alike

end PatternList

namespace PresetFile

open PatternList

/-! ### Texts of presets -/

/-- What the patterns that are loaded stand for. -/
lemma filterMap_patternLines (t : Text) :
    (patternLines t).filterMap readLine? =
      (lines t).filterMap (fun raw => readLine? (strip raw)) := by
  rw [patternLines, List.filterMap_filter, List.filterMap_map]
  refine List.filterMap_congr fun raw _ => ?_
  dsimp only [Function.comp_apply]
  split
  · rfl
  · rename_i hdropped
    rw [readLine?, stripLine_strip]
    cases hline : strip raw with
    | nil => rfl
    | cons c rest =>
      obtain rfl : c = .of '#' := by simpa [hline] using hdropped
      rfl

/-- A pattern that is loaded is a line that is not empty. -/
lemma isLine_of_mem_patternLines {t p : Text} (h : p ∈ patternLines t) :
    p ≠ [] ∧ p.any isLineBoundary = false := by
  rw [patternLines, List.mem_filter] at h
  obtain ⟨hmem, hkept⟩ := h
  obtain ⟨raw, hraw, rfl⟩ := List.mem_map.1 hmem
  refine ⟨fun hnil => by simp [hnil] at hkept, ?_⟩
  rw [List.any_eq_false]
  exact fun c hc => List.any_eq_false.1 (noBoundary_of_mem_lines t raw hraw) c
    ((strip_isInfix raw).subset hc)

/-- **What is loaded stands for the same** as the text exactly if no line loses a space. -/
theorem parse_patternLines_iff (t : Text) :
    parse (joinWith [.of '\n'] (patternLines t)) = parse t ↔ ∀ raw ∈ lines t, ¬ LosesSpace raw := by
  rw [parse, parse, lines_joinWith fun p hp => isLine_of_mem_patternLines hp,
    filterMap_patternLines, ofEntries_eq_iff fun raw _ => alike_strip raw]
  exact forall₂_congr fun raw _ => readLine?_strip_eq_iff raw

variable {name : Text} {origin : Option Origin}

/-- **Saving again what was loaded** keeps what a preset stands for exactly if no line loses a
space. -/
theorem parse_saved_iff (hname : name.any isLineBoundary = false)
    (horigin : ∀ o ∈ origin, o.IsOneLine) (now : Timestamp) (t : Text) :
    parse (render name (patternLines t) origin now) = parse t ↔
      ∀ raw ∈ lines t, ¬ LosesSpace raw := by
  have hloaded : parse (joinWith [.of '\n'] (patternLines t)) =
      ofEntries ((patternLines t).filterMap readLine?) := by
    rw [parse, lines_joinWith fun p hp => isLine_of_mem_patternLines hp]
  rw [parse_render hname horigin fun p hp => (isLine_of_mem_patternLines hp).2, ← hloaded,
    parse_patternLines_iff]

/-- A tree with one file, whose name ends with a space. -/
def spacedFile : MemoryTree := .build "/p".toText [.file "a ".toText []]

/-- **A preset of a file whose name ends with a space** cannot be expanded once it was loaded and
saved again: a backslash is left with nothing behind it. -/
theorem not_expandText_patternLines :
    patternLines "a\\ \n".toText = ["a\\".toText] ∧
    (expandText spacedFile.fileSystem "/p".toText .standard "a\\ \n".toText).outcome =
      .ok ["a ".toText] ∧
    (expandText spacedFile.fileSystem "/p".toText .standard
      (joinWith [.of '\n'] (patternLines "a\\ \n".toText))).outcome =
      .error (.badLine (.invalid "/a\\".toText)) := by
  refine ⟨?_, ?_, ?_⟩ <;> decide +kernel

end PresetFile

end GlobPreset
