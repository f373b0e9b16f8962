import GlobPreset.Compile
import GlobPreset.Proofs.Expansion.Outcome
import GlobPreset.Proofs.FileSystem.Memory
import GlobPreset.Proofs.Pattern.Spelled
import GlobPreset.Proofs.Selection.Normal

/-!
# Literal paths that the check of patterns refuses

The check of a pattern reads every backslash as a separator, and writing a literal path puts one in
front of each character with a meaning. So the check takes a segment for two where a character is
escaped. A name that starts with two dots in front of such a character is taken for a parent
segment, and its pattern is refused, though it leads nowhere out of the project. No other safe path
of a selection is refused.

## Main definitions

* `Pattern.hidesParent` — an escape cuts two dots off from the rest of a segment.

## Main results

* `Pattern.hasParentSegment_escapeLiteral` — what the check finds in the pattern of a path.
* `Selection.checkSafe_escapeLiteral_iff` — **a safe path of a normal selection has a pattern that
  passes the check exactly if no escape cuts two dots off**.
* `Expand.expandText_of_hidesParent` — one such pattern has a whole list refused.
* `Selection.not_expand_compileSelection_dottedFile` — a selection whose patterns are refused.
-/

set_option autoImplicit false

namespace GlobPreset

open GlobPreset.Path Text

/-! ### Parent segments, backslashes being separators -/

namespace Path

variable {s t : Text}

/-- A separator of any platform cuts a text in two that are searched apart. -/
lemma hasParentSegment_append {sep : CodePoint} (hsep : isSeparator sep = true) (s t : Text) :
    hasParentSegment (toSlashes (s ++ sep :: t)) =
      (hasParentSegment (toSlashes s) || hasParentSegment (toSlashes t)) := by
  have hslash : toSlashes (s ++ sep :: t) = toSlashes s ++ .of '/' :: toSlashes t := by
    have hcons : toSlashes (sep :: t) = .of '/' :: toSlashes t := by
      rcases Bool.or_eq_true_iff.1 hsep with h | h <;> rw [beq_iff_eq.1 h] <;> rfl
    rw [toSlashes_append, hcons]
  rw [hslash, hasParentSegment, segments_append_slash, List.any_append]
  rfl

/-- A text without separators is one segment. -/
lemma hasParentSegment_of_plain (h : s.any isSeparator = false) :
    hasParentSegment (toSlashes s) = (s == [.of '.', .of '.']) := by
  have hsep : ∀ c ∈ s, c ≠ .of '/' ∧ c ≠ .of '\\' := by
    intro c hc
    have hc := List.any_eq_false.1 h c hc
    rwa [isSeparator, Bool.or_eq_true, not_or, beq_iff_eq, beq_iff_eq] at hc
  rw [toSlashes_eq_self fun hmem => (hsep _ hmem).2 rfl, hasParentSegment, segments,
    splitOn_of_not_mem fun hmem => (hsep _ hmem).1 rfl]
  simp

end Path

namespace Pattern

variable {s t : Text}

/-! ### Writing at the end of a text -/

/-- All that a literal text has behind its first character is written character by character, except
for its very end. -/
lemma escapeTail_append (s : Text) (ht : t ≠ []) :
    escapeTail (s ++ t) = s.flatMap escapeChar ++ escapeTail t := by
  induction s with
  | nil => rfl
  | cons c s ih =>
    have hmore : (s ++ t).isEmpty = false := by simp [ht]
    rw [List.cons_append, escapeTail, ih, hmore, Bool.and_false, if_neg Bool.false_ne_true,
      List.flatMap_cons, List.append_assoc]

/-- A slash is written as it is, and is no end. -/
lemma escapeTail_append_slash (s t : Text) :
    escapeTail (s ++ .of '/' :: t) = s.flatMap escapeChar ++ .of '/' :: escapeTail t :=
  escapeTail_append s (List.cons_ne_nil (.of '/') t)

/-- A space at the end is escaped. -/
lemma escapeTail_append_space (s : Text) :
    escapeTail (s ++ [.of ' ']) = s.flatMap escapeChar ++ .of '\\' :: [.of ' '] :=
  escapeTail_append s (List.cons_ne_nil (CodePoint.of ' ') [])

/-- A text that does not end with a space is written character by character. -/
lemma escapeTail_eq_flatMap (h : s.getLast? ≠ some (.of ' ')) :
    escapeTail s = s.flatMap escapeChar := by
  rcases List.eq_nil_or_concat' s with rfl | ⟨front, c, rfl⟩
  · rfl
  · have hc : c ≠ .of ' ' := by
      rintro rfl
      exact h List.getLast?_concat
    rw [escapeTail_append front (List.cons_ne_nil c []), List.flatMap_append]
    simp [escapeTail, hc]

/-! ### One segment -/

/-- The start of a segment in front of its first escaped character. -/
def plainStart (s : Text) : Text := s.takeWhile (fun c => !needsEscape c)

/-- The segment starts with two dots in front of an escaped character. -/
def isCutBehindDots : Text → Bool
  | .of '.' :: .of '.' :: c :: _ => needsEscape c
  | _ => false

/-- The plain start of a segment other than two dots is two dots if the segment is cut behind them.
-/
lemma plainStart_eq_dots (h : s ≠ [.of '.', .of '.']) :
    (plainStart s == [.of '.', .of '.']) = isCutBehindDots s := by
  unfold isCutBehindDots
  split
  · rename_i c rest
    cases hc : needsEscape c <;> simp [plainStart, hc, show needsEscape (.of '.') = false from rfl]
  · rename_i hno
    rw [beq_eq_false_iff_ne]
    intro hdots
    have hsplit := List.takeWhile_append_dropWhile (p := fun c => !needsEscape c) (l := s)
    rw [← plainStart, hdots] at hsplit
    cases hrest : s.dropWhile (fun c => !needsEscape c) with
    | nil => exact h (by rw [← hsplit, hrest]; rfl)
    | cons c rest => exact hno c rest (by rw [← hsplit, hrest]; rfl)

/-- What the check finds in a segment: two dots that stand alone in front of an escape, or in front
of the end. -/
lemma hasParentSegment_flatMap_escapeChar {x : Text} (hx : x.any isSeparator = false)
    (hs : s.any isSeparator = false) :
    hasParentSegment (toSlashes (x ++ s.flatMap escapeChar)) =
      (x ++ plainStart s == [.of '.', .of '.']) := by
  induction s generalizing x with
  | nil => exact hasParentSegment_of_plain (by simpa using hx)
  | cons c s ih =>
    rw [List.any_cons, Bool.or_eq_false_iff] at hs
    by_cases he : needsEscape c = true
    · -- the escape cuts: what stands in front is a segment, and what follows starts with no dot
      have hchar : escapeChar c = [.of '\\', c] := if_pos he
      have hstart : plainStart (c :: s) = [] := List.takeWhile_cons_of_neg (by simp [he])
      have hdot : c ≠ .of '.' := by
        rintro rfl
        exact absurd he (by decide)
      have hbehind : hasParentSegment (toSlashes (c :: s.flatMap escapeChar)) = false := by
        have hrest := ih (x := [c]) (by simpa using hs.1) hs.2
        rw [List.singleton_append] at hrest
        rw [hrest, beq_eq_false_iff_ne]
        intro hdots
        exact hdot (List.cons.inj hdots).1
      rw [List.flatMap_cons, hchar, hstart, List.append_nil, List.cons_append,
        List.singleton_append, hasParentSegment_append rfl, hasParentSegment_of_plain hx, hbehind,
        Bool.or_false]
    · have hchar : escapeChar c = [c] := if_neg he
      have hstart : plainStart (c :: s) = c :: plainStart s :=
        List.takeWhile_cons_of_pos (by simpa using he)
      have hrest := ih (x := x ++ [c]) (by simp [List.any_append, hx, hs.1]) hs.2
      rw [List.flatMap_cons, hchar, hstart, ← List.append_assoc, hrest, List.append_assoc]
      rfl

/-- A segment in front of a slash. -/
lemma hasParentSegment_segment (hs : s.any isSeparator = false) :
    hasParentSegment (toSlashes (s.flatMap escapeChar)) = (plainStart s == [.of '.', .of '.']) :=
  hasParentSegment_flatMap_escapeChar (x := []) rfl hs

/-- A space behind a segment is no end of its start. -/
lemma plainStart_append_space_eq_dots (s : Text) :
    plainStart s = [.of '.', .of '.'] ↔
      plainStart (s ++ [.of ' ']) = [.of '.', .of '.'] ∨ s = [.of '.', .of '.'] := by
  have hstart : plainStart (s ++ [.of ' ']) =
      if plainStart s = s then s ++ [.of ' '] else plainStart s := by
    by_cases hall : ∀ c ∈ s, (!needsEscape c) = true
    · have hself : plainStart s = s := List.takeWhile_eq_self_iff.2 hall
      rw [if_pos hself, plainStart, List.takeWhile_append_of_pos hall]
      rfl
    · have hpart : (s.takeWhile fun c => !needsEscape c).length ≠ s.length := by
        intro hlen
        exact hall (List.takeWhile_eq_self_iff.1
          ((List.takeWhile_prefix _).eq_of_length hlen))
      have hself : plainStart s ≠ s := fun e => hall (List.takeWhile_eq_self_iff.1 e)
      rw [if_neg hself, plainStart, List.takeWhile_append, if_neg hpart]
      rfl
  rw [hstart]
  split
  · rename_i hself
    have hspace : s ++ [.of ' '] ≠ [.of '.', .of '.'] := by
      intro e
      have hlast := congrArg List.getLast? e
      rw [List.getLast?_concat] at hlast
      exact absurd hlast (by decide)
    rw [hself]
    simp [hspace]
  · rename_i hself
    refine ⟨.inl, fun h => h.elim id fun e => ?_⟩
    rw [e]
    rfl

/-- The last segment: a space at its end is escaped, too. -/
lemma hasParentSegment_lastSegment (hs : s.any isSeparator = false) :
    hasParentSegment (toSlashes (escapeTail s)) =
      (plainStart s == [.of '.', .of '.'] || s == ".. ".toText) := by
  by_cases hspace : s.getLast? = some (.of ' ')
  · obtain ⟨front, rfl⟩ := List.getLast?_eq_some_iff.1 hspace
    have hfront : front.any isSeparator = false := by
      rw [List.any_append, Bool.or_eq_false_iff] at hs
      exact hs.1
    have hwhole : (front ++ [.of ' '] == ".. ".toText) =
        (front == [.of '.', .of '.']) := by
      rw [Bool.eq_iff_iff, beq_iff_eq, beq_iff_eq]
      exact (List.append_left_inj [CodePoint.of ' '] :
        front ++ [.of ' '] = [.of '.', .of '.'] ++ [.of ' '] ↔ _)
    rw [escapeTail_append_space, hasParentSegment_append rfl, hasParentSegment_segment hfront,
      hwhole, show hasParentSegment (toSlashes [.of ' ']) = false by rfl, Bool.or_false,
      Bool.eq_iff_iff, Bool.or_eq_true, beq_iff_eq, beq_iff_eq, beq_iff_eq]
    exact plainStart_append_space_eq_dots front
  · have hne : (s == ".. ".toText) = false := by
      rw [beq_eq_false_iff_ne]
      rintro rfl
      exact hspace rfl
    rw [escapeTail_eq_flatMap hspace, hasParentSegment_segment hs, hne, Bool.or_false]

/-! ### A whole path -/

/-- An escape cuts two dots off in front of a segment: a character that is escaped wherever it
stands, or the space that ends the path. -/
def hidesParent (path : Text) : Bool :=
  (segments path).any isCutBehindDots || (segments path).getLast? == some ".. ".toText

/-- An escape in front of a text makes no parent segment. -/
lemma hasParentSegment_cons_backslash (s : Text) :
    hasParentSegment (toSlashes (.of '\\' :: s)) = hasParentSegment (toSlashes s) := by
  rw [← List.nil_append (.of '\\' :: s), hasParentSegment_append rfl]
  rfl

/-- The first character is escaped for the sake of the stored line, which the check does not see. -/
lemma hasParentSegment_escapeLiteral_eq (t : Text) :
    hasParentSegment (toSlashes (escapeLiteral t)) =
      hasParentSegment (toSlashes (escapeTail t)) := by
  cases t with
  | nil => rfl
  | cons c rest =>
    rw [escapeLiteral, escapeTail]
    by_cases hlead : needsLeadEscape c = true
    · rw [if_pos hlead, List.cons_append, List.singleton_append, hasParentSegment_cons_backslash]
      split
      · rename_i hspace
        simp only [Bool.and_eq_true, decide_eq_true_eq] at hspace
        rw [hspace.1, List.cons_append, List.singleton_append, hasParentSegment_cons_backslash]
      · unfold escapeChar
        split
        · rw [List.cons_append, List.singleton_append, hasParentSegment_cons_backslash]
        · rw [List.singleton_append]
    · rw [if_neg hlead]

/-- What the check finds in a path that is written segment by segment. -/
lemma hasParentSegment_escapeTail {parts : List Text} (hne : parts ≠ [])
    (hparts : ∀ s ∈ parts, s.any isSeparator = false) :
    hasParentSegment (toSlashes (escapeTail (ofSegments parts))) =
      (parts.any (fun s => plainStart s == [.of '.', .of '.']) ||
        parts.getLast? == some ".. ".toText) := by
  induction parts with
  | nil => exact absurd rfl hne
  | cons s rest ih =>
    have hs := hparts s List.mem_cons_self
    by_cases hrest : rest = []
    · subst hrest
      rw [ofSegments_singleton, hasParentSegment_lastSegment hs]
      simp
    · rw [ofSegments_cons s hrest, escapeTail_append_slash, hasParentSegment_append rfl,
        hasParentSegment_segment hs, ih hrest fun p hp => hparts p (List.mem_cons_of_mem s hp),
        List.any_cons, List.getLast?_cons_of_ne_nil hrest, Bool.or_assoc]

/-- **What the check finds in the pattern of a path**: the dots that an escape cuts off. -/
theorem hasParentSegment_escapeLiteral {path : Text} (hpath : IsClean path) :
    hasParentSegment (toSlashes (escapeLiteral path)) = hidesParent path := by
  have hparts : ∀ s ∈ segments path, s.any isSeparator = false := by
    intro s hs
    refine List.any_eq_false.2 fun c hc hsep => ?_
    rcases Bool.or_eq_true_iff.1 hsep with h | h
    · exact not_mem_of_mem_splitOn hs (beq_iff_eq.1 h ▸ hc)
    · exact hpath.noBackslash (mem_of_mem_splitOn hs (beq_iff_eq.1 h ▸ hc))
  have hdots : ∀ s ∈ segments path, s ≠ [.of '.', .of '.'] :=
    ne_dots_of_safe (by rw [ofSegments_segments]; exact hpath.safe)
  have hany : (segments path).any (fun s => plainStart s == [.of '.', .of '.']) =
      (segments path).any isCutBehindDots := by
    rw [Bool.eq_iff_iff, List.any_eq_true, List.any_eq_true]
    exact exists_congr fun s => and_congr_right fun hs => by rw [plainStart_eq_dots (hdots s hs)]
  rw [hasParentSegment_escapeLiteral_eq]
  conv_lhs => rw [← ofSegments_segments path]
  rw [hasParentSegment_escapeTail (segments_ne_nil path) hparts, hany, hidesParent]

/-! ### The check -/

/-- The pattern of a clean path, on its own or in front of a slash and a wildcard, is read as itself
and as the path. -/
lemma checkSafe_escapeLiteral_append {path tail : Text} (hpath : IsClean path)
    (htail : tail = [] ∨ tail = recursiveTail) :
    checkSafe (escapeLiteral path ++ tail) = .ok () ↔
      unsafeCause? (escapeLiteral path ++ tail) = none := by
  have hspells := spells_escapeLiteral path
  have hbase : literalBase (escapeLiteral path ++ tail) = path := by
    rcases htail with rfl | rfl
    · rw [List.append_nil, literalBase_spelling hspells hpath]
    · exact literalBase_spelled hspells hpath rfl rfl
  have hreadings : readings (escapeLiteral path ++ tail) =
      [escapeLiteral path ++ tail, escapeLiteral path ++ tail, path] := by
    rw [readings, hspells.alternatives_append (by rcases htail with rfl | rfl <;> decide)]
    simp [hbase]
  change PatternList.checkSafe ⟨[escapeLiteral path ++ tail], []⟩ = .ok () ↔ _
  rw [PatternList.checkSafe_eq_ok, List.append_nil, List.forall_mem_singleton, hreadings]
  simp [hpath.safe]

/-- **The pattern of a clean path passes the check** exactly if no escape cuts two dots off. -/
theorem checkSafe_escapeLiteral_iff {path tail : Text} (hpath : IsClean path)
    (htail : tail = [] ∨ tail = recursiveTail) :
    checkSafe (escapeLiteral path ++ tail) = .ok () ↔ hidesParent path = false := by
  have hspells := spells_escapeLiteral path
  have hnul : .of '\x00' ∉ escapeLiteral path ++ tail := by
    rw [List.mem_append, not_or]
    exact ⟨noNul_spelling hspells hpath, by rcases htail with rfl | rfl <;> decide⟩
  have habs : isAbsolute (escapeLiteral path ++ tail) = false :=
    isAbsolute_spelled hspells hpath tail (htail.imp_right fun h => by rw [h]; rfl)
  have hparent : hasParentSegment (toSlashes (escapeLiteral path ++ tail)) = hidesParent path := by
    rw [← hasParentSegment_escapeLiteral hpath]
    rcases htail with rfl | rfl
    · rw [List.append_nil]
    · have hstars : hasParentSegment (toSlashes [.of '*', .of '*']) = false := rfl
      rw [recursiveTail, hasParentSegment_append rfl, hstars, Bool.or_false]
  rw [checkSafe_escapeLiteral_append hpath htail, unsafeCause?_eq_none, hparent]
  exact ⟨fun h => h.2.2, fun h => ⟨hnul, habs, h⟩⟩

end Pattern

namespace Expand

variable {path tail text : Text}

/-- A list that the check refuses is expanded nowhere. -/
lemma expandText_of_checkSafe_error {e : UnsafePath}
    (h : (PatternList.parse text).checkSafe = .error e) (fs : FileSystem) (root : Text)
    (context : Context) : expandText fs root context text = ⟨.error (.unsafePath e), []⟩ := by
  simp [expandText, PatternList.expand, outcome, warnings, h, Except.mapError, bind, Except.bind]

/-- **One pattern of a path with such dots has the whole list refused**, wherever it is expanded. -/
theorem expandText_of_hidesParent (hpath : IsClean path) (hhides : Pattern.hidesParent path = true)
    (htail : tail = [] ∨ tail = Pattern.recursiveTail)
    (hmem : Pattern.escapeLiteral path ++ tail ∈
      (PatternList.parse text).includes ++ (PatternList.parse text).excludes) :
    ∃ e : UnsafePath, ∀ (fs : FileSystem) (root : Text) (context : Context),
      expandText fs root context text = ⟨.error (.unsafePath e), []⟩ := by
  cases hcheck : (PatternList.parse text).checkSafe with
  | error e => exact ⟨e, expandText_of_checkSafe_error hcheck⟩
  | ok _ =>
    have hsafe : unsafeCause? (Pattern.escapeLiteral path ++ tail) = none :=
      PatternList.checkSafe_eq_ok.1 hcheck _ hmem _ List.mem_cons_self
    rw [← Pattern.checkSafe_escapeLiteral_append hpath htail,
      Pattern.checkSafe_escapeLiteral_iff hpath htail, hhides] at hsafe
    cases hsafe

end Expand

namespace Selection

/-- **A safe path of a normal selection has patterns that pass the check**, as a file and as a
directory, exactly if no escape cuts two dots off. -/
theorem checkSafe_escapeLiteral_iff {inputs paths : List Text} (h : normalize inputs = .ok paths)
    {path : Text} (hpath : path ∈ paths) (hsafe : unsafeCause? path = none) {tail : Text}
    (htail : tail = [] ∨ tail = Pattern.recursiveTail) :
    Pattern.checkSafe (Pattern.escapeLiteral path ++ tail) = .ok () ↔
      Pattern.hidesParent path = false :=
  Pattern.checkSafe_escapeLiteral_iff (isClean_of_normalize h hpath hsafe) htail

/-- A tree with one file, whose name starts with two dots in front of a bracket. -/
def dottedFile : MemoryTree := .build "/p".toText [.file "..[x]".toText []]

/-- **What a selection compiles to may be refused**, though the selection itself is safe. -/
theorem not_expand_compileSelection_dottedFile :
    normalize ["..[x]".toText] = .ok ["..[x]".toText] ∧ unsafeCause? "..[x]".toText = none ∧
    ((compileSelection dottedFile.fileSystem "/p".toText .standard .balanced
        ["..[x]".toText]).outcome.map Compilation.toText = .ok "..\\[x\\]\n".toText) ∧
    (expandText dottedFile.fileSystem "/p".toText .standard "..\\[x\\]\n".toText).outcome =
      .error (.unsafePath ⟨"pattern".toText, "..\\[x\\]".toText, .parentSegment⟩) := by
  refine ⟨?_, ?_, ?_, ?_⟩ <;> decide +kernel

end Selection

end GlobPreset
