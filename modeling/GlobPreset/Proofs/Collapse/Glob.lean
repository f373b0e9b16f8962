import GlobPreset.Collapse.Engine
import GlobPreset.Emit.Order
import GlobPreset.Proofs.Pattern.Spelled

/-!
# The patterns of a run

A run writes patterns of five forms to select files: one for a single file, and four that
generalize. Each is a literal path followed by a tail that is empty or starts with a wildcard, so
the path is the literal base, and there are no braces to be spelled out.

## Main definitions

* `Glob` — the forms, with `Glob.base` and `Glob.text`.
* `Glob.IsProper` — the path is read alike everywhere, and the extension is plain.

## Main results

* `Glob.IsProper.alternatives_text`, `Glob.IsProper.literalBase_text`,
  `Glob.IsProper.readings_safe` — how a pattern of a run is read.
* `Glob.IsProper.recursiveDirectory?_text` — which of them are directory patterns.
-/

set_option autoImplicit false

namespace GlobPreset

open GlobPreset.Path Text

/-- A pattern that a run writes to select files. -/
inductive Glob where
  /-- A single file. -/
  | file (path : Text)
  /-- Everything below a directory. -/
  | tree (directory : Text)
  /-- The files of an extension directly inside a directory. -/
  | direct (directory extension : Text)
  /-- The files of an extension below a directory. -/
  | deep (directory extension : Text)
  /-- The files of an extension in the project. -/
  | everywhere (extension : Text)

/-- An extension that stands in a pattern as it is. -/
def IsExtension (extension : Text) : Prop :=
  extension ≠ [] ∧ ∀ c ∈ extension, Engine.isPlainInExtension c = true

/-- A character that does not belong into extensions is in none. -/
lemma IsExtension.not_mem {extension : Text} (h : IsExtension extension)
    {c : CodePoint} (hc : Engine.isPlainInExtension c = false) : c ∉ extension := by
  intro hmem
  rw [h.2 c hmem] at hc
  cases hc

namespace Glob

/-- The path that a pattern starts with. -/
def base : Glob → Text
  | file path => path
  | tree directory => directory
  | direct directory _ => directory
  | deep directory _ => directory
  | everywhere _ => []

/-- What follows the path. -/
def tail : Glob → Text
  | file _ => []
  | tree _ => Pattern.recursiveTail
  | direct _ extension => .of '/' :: .of '*' :: .of '.' :: extension
  | deep _ extension => .of '/' :: .of '*' :: .of '*' :: .of '/' :: .of '*' :: .of '.' :: extension
  | everywhere extension => .of '*' :: .of '*' :: .of '/' :: .of '*' :: .of '.' :: extension

/-- The pattern is that of a single file. -/
def isFile : Glob → Bool
  | file _ => true
  | _ => false

/-- The directory of a pattern of everything below it. -/
def directory? : Glob → Option Text
  | tree directory => some directory
  | _ => none

/-- The pattern. -/
def text (g : Glob) : Text := Pattern.escapeLiteral g.base ++ g.tail

/-- The pattern of a file is its path, written literally. -/
lemma text_file (path : Text) : (file path).text = Pattern.escapeLiteral path := List.append_nil _

/-- The path is read alike everywhere, and the extension stands for itself. -/
def IsProper : Glob → Prop
  | file path => IsOrdinary path
  | tree directory => IsTame directory
  | direct directory extension => IsTame directory ∧ IsExtension extension
  | deep directory extension => IsTame directory ∧ IsExtension extension
  | everywhere extension => IsExtension extension

/-! ### Characters -/

/-- The characters of an extension are letters, digits and signs of ASCII. -/
lemma toNat_of_isPlainInExtension {c : CodePoint} (h : Engine.isPlainInExtension c = true) :
    33 ≤ c.toNat ∧ c.toNat < 127 := by
  have hrange : ∀ low high d : Char, 33 ≤ low.toNat → high.toNat < 127 →
      low.val ≤ d.val ∧ d.val ≤ high.val → 33 ≤ d.toNat ∧ d.toNat < 127 :=
    fun _ _ _ hlow hhigh h => ⟨le_trans hlow (UInt32.le_iff_toNat_le.1 h.1),
      lt_of_le_of_lt (UInt32.le_iff_toNat_le.1 h.2) hhigh⟩
  simp only [Engine.isPlainInExtension, Bool.or_eq_true, beq_iff_eq] at h
  rcases h with (((h | rfl) | rfl) | rfl) | rfl
  · cases c with
    | surrogate place => cases h
    | of d =>
      simp only [CodePoint.isAlphanum, Char.isAlphanum, Bool.or_eq_true] at h
      rcases h with h | h
      · rcases Bool.or_eq_true_iff.1 h with h | h
        · exact hrange 'A' 'Z' d (by decide) (by decide) (of_decide_eq_true h)
        · exact hrange 'a' 'z' d (by decide) (by decide)
            ((Bool.and_eq_true_iff.1 h).imp of_decide_eq_true of_decide_eq_true)
      · exact hrange '0' '9' d (by decide) (by decide)
          ((Bool.and_eq_true_iff.1 h).imp of_decide_eq_true of_decide_eq_true)
  all_goals decide

/-- A visible character of ASCII is no blank. -/
lemma isBlank_eq_false {c : CodePoint} (h : 33 ≤ c.toNat ∧ c.toNat < 127) : isBlank c = false := by
  simp [isBlank]
  omega

/-- A visible character of ASCII ends no line. -/
lemma isLineBoundary_eq_false {c : CodePoint} (h : 33 ≤ c.toNat ∧ c.toNat < 127) :
    isLineBoundary c = false := by
  simp [isLineBoundary]
  omega

variable {g : Glob}

/-- The characters of a tail are slashes, stars and dots, and those of an extension. -/
lemma IsProper.mem_tail (h : g.IsProper) {c : CodePoint} (hc : c ∈ g.tail) :
    c = .of '/' ∨ c = .of '*' ∨ c = .of '.' ∨ Engine.isPlainInExtension c = true := by
  cases g with
  | file path => cases hc
  | tree directory =>
    simp only [tail, Pattern.recursiveTail, List.mem_cons, List.not_mem_nil, or_false] at hc
    tauto
  | direct directory extension =>
    simp only [tail, List.mem_cons] at hc
    have := h.2.2 c
    tauto
  | deep directory extension =>
    simp only [tail, List.mem_cons] at hc
    have := h.2.2 c
    tauto
  | everywhere extension =>
    simp only [tail, List.mem_cons] at hc
    have := h.2 c
    tauto

/-- The path of a pattern is tame, unless the pattern looks everywhere. -/
lemma IsProper.base_eq_nil_or (h : g.IsProper) :
    (∃ extension, g = .everywhere extension) ∨ IsTame g.base := by
  cases g with
  | file path => exact .inr h.toIsTame
  | tree directory => exact .inr h
  | direct directory extension => exact .inr h.1
  | deep directory extension => exact .inr h.1
  | everywhere extension => exact .inl ⟨extension, rfl⟩

/-! ### Readings -/

/-- A pattern of a run has no braces to be spelled out. -/
lemma IsProper.alternatives_text (h : g.IsProper) : Pattern.alternatives g.text = [g.text] := by
  refine (Pattern.spells_escapeLiteral g.base).alternatives_append fun hmem => ?_
  rcases h.mem_tail hmem with hc | hc | hc | hc <;> exact absurd hc (by decide)

/-- A star is a wildcard, whatever follows. -/
lemma hasWildcard_star (rest : Text) : Pattern.hasWildcard (.of '*' :: rest) = true := by
  rw [Pattern.hasWildcard, Pattern.hasUnescaped_cons (by decide)]
  rfl

/-- A pattern of a run has a wildcard unless it is that of a file. -/
lemma hasWildcard_text (g : Glob) : Pattern.hasWildcard g.text = !g.isFile := by
  rw [text, (Pattern.spells_escapeLiteral g.base).hasWildcard_append]
  have hslash : ∀ rest, Pattern.hasWildcard (.of '/' :: .of '*' :: rest) = true := by
    intro rest
    rw [Pattern.hasWildcard, Pattern.hasUnescaped_cons (by decide)]
    exact Bool.or_eq_true_iff.2 (.inr (hasWildcard_star rest))
  cases g with
  | file path => rfl
  | tree directory => exact hslash [.of '*']
  | direct directory extension => exact hslash _
  | deep directory extension => exact hslash _
  | everywhere extension => exact hasWildcard_star _

/-- **The literal base of a pattern of a run** is its path. -/
lemma IsProper.literalBase_text (h : g.IsProper) : Pattern.literalBase g.text = g.base := by
  have hspell := Pattern.spells_escapeLiteral g.base
  have hstar : ∀ x more, segments (.of '*' :: x) = more → ∃ y rest, more = y :: rest ∧
      Pattern.hasWildcard y = true := by
    rintro x _ rfl
    obtain ⟨piece, pieces, hcut⟩ := List.exists_cons_of_ne_nil (segments_ne_nil x)
    exact ⟨.of '*' :: piece, pieces, splitOn_cons_of_ne (by decide) hcut, hasWildcard_star piece⟩
  have hslash : ∀ x, IsTame g.base → g.tail = .of '/' :: .of '*' :: x →
      Pattern.literalBase g.text = g.base := by
    intro x ht htail
    obtain ⟨y, rest, hcut, hy⟩ := hstar x _ rfl
    rw [text, htail]
    exact Pattern.literalBase_spelled hspell ht.isClean hcut hy
  cases g with
  | file path =>
    rw [text, tail, List.append_nil]
    exact Pattern.literalBase_spelling hspell h.isClean
  | tree directory => exact hslash _ h rfl
  | direct directory extension => exact hslash _ h.1 rfl
  | deep directory extension => exact hslash _ h.1 rfl
  | everywhere extension =>
    obtain ⟨y, rest, hcut, hy⟩ :=
      hstar (.of '*' :: .of '/' :: .of '*' :: .of '.' :: extension) _ rfl
    have hne : y ≠ [] := by
      rintro rfl
      cases hy
    change
      Pattern.literalBase (.of '*' :: .of '*' :: .of '/' :: .of '*' :: .of '.' :: extension) = []
    rw [Pattern.literalBase, names, hcut, List.filter_cons_of_pos (by simpa using hne),
      List.takeWhile_cons_of_neg (by simp [hy])]
    rfl

/-! ### Safety -/

/-- A name pattern has no parent segment. -/
lemma hasParentSegment_name {extension : Text} (h : IsExtension extension) :
    hasParentSegment (toSlashes (.of '*' :: .of '.' :: extension)) = false := by
  have hback : .of '\\' ∉ .of '*' :: .of '.' :: extension := by
    simp [h.not_mem (c := .of '\\') (by decide)]
  have hslash : .of '/' ∉ .of '*' :: .of '.' :: extension := by
    simp [h.not_mem (c := .of '/') (by decide)]
  rw [toSlashes_eq_self hback, hasParentSegment,
    show segments (.of '*' :: .of '.' :: extension) = _ from splitOn_of_not_mem hslash]
  rfl

/-- A name pattern behind `**` has no parent segment. -/
lemma hasParentSegment_deepName {extension : Text} (h : IsExtension extension) :
    hasParentSegment
      (toSlashes (.of '*' :: .of '*' :: .of '/' :: .of '*' :: .of '.' :: extension)) = false := by
  have hcut := segments_toSlashes_append [.of '*', .of '*'] (.of '*' :: .of '.' :: extension)
  rw [hasParentSegment, show .of '*' :: .of '*' :: .of '/' :: .of '*' :: .of '.' :: extension =
    [.of '*', .of '*'] ++ .of '/' :: .of '*' :: .of '.' :: extension from rfl, hcut,
    List.any_append]
  exact hasParentSegment_name h

/-- **A pattern of a run is safe.** -/
lemma IsProper.unsafeCause?_text (h : g.IsProper) : unsafeCause? g.text = none := by
  have hspell := Pattern.spells_escapeLiteral g.base
  have hnul : ∀ {extension : Text}, IsExtension extension → .of '\x00' ∉ extension :=
    fun he => he.not_mem (by decide)
  cases g with
  | file path => exact Pattern.unsafeCause?_spelled hspell h.toIsTame (.inl rfl)
  | tree directory =>
    exact Pattern.unsafeCause?_spelled hspell h
      (.inr ⟨[.of '*', .of '*'], rfl, by decide, by decide⟩)
  | direct directory extension =>
    exact Pattern.unsafeCause?_spelled hspell h.1 (.inr ⟨.of '*' :: .of '.' :: extension, rfl,
      by simp [hnul h.2], hasParentSegment_name h.2⟩)
  | deep directory extension =>
    exact Pattern.unsafeCause?_spelled hspell h.1 (.inr
      ⟨.of '*' :: .of '*' :: .of '/' :: .of '*' :: .of '.' :: extension, rfl, by simp [hnul h.2],
        hasParentSegment_deepName h.2⟩)
  | everywhere extension =>
    refine unsafeCause?_eq_none.2 ⟨?_, ?_, hasParentSegment_deepName h⟩
    · change (.of '\x00') ∉ .of '*' :: .of '*' :: .of '/' :: .of '*' :: .of '.' :: extension
      simp [hnul h]
    · change isAbsolute (.of '*' :: .of '*' :: .of '/' :: .of '*' :: .of '.' :: extension) = false
      rw [isAbsolute, hasDrive_cons_cons (.inl (by decide))]
      rfl

/-- **No reading of a pattern of a run is unsafe.** -/
lemma IsProper.readings_safe (h : g.IsProper) :
    ∀ r ∈ Pattern.readings g.text, unsafeCause? r = none := by
  intro r hr
  rw [Pattern.readings, h.alternatives_text, List.flatMap_singleton, h.literalBase_text] at hr
  have hbase : unsafeCause? g.base = none := by
    rcases h.base_eq_nil_or with ⟨extension, rfl⟩ | ht
    · rfl
    · exact ht.safe
  simp only [List.mem_cons, List.not_mem_nil, or_false] at hr
  rcases hr with rfl | rfl | rfl
  · exact h.unsafeCause?_text
  · exact h.unsafeCause?_text
  · exact hbase

/-! ### Marks and directory patterns -/

/-- A pattern of a run starts with no mark. -/
lemma IsProper.head?_ne (h : g.IsProper) {c : CodePoint} (hc : Pattern.needsLeadEscape c = true) :
    g.text.head? ≠ some c := by
  rcases h.base_eq_nil_or with ⟨extension, rfl⟩ | ht
  · intro hhead
    obtain rfl : .of '*' = c := by simpa [text, base, tail, Pattern.escapeLiteral] using hhead
    exact absurd hc (by decide)
  · exact Pattern.head?_ne_of_needsLeadEscape ht g.tail hc

/-- The text of a proper glob is no exclusion. -/
lemma IsProper.isExcluded_text (h : g.IsProper) : isExcluded g.text = false := by
  have hne := h.head?_ne (c := .of '!') (by decide)
  simpa [isExcluded] using hne

/-- The pattern of a file does not end like that of a directory. -/
lemma endsWith_text_file (path : Text) :
    endsWith (file path).text Pattern.recursiveTail = false := by
  rw [Bool.eq_false_iff, ne_eq, endsWith_iff, text_file]
  rintro ⟨front, hfront⟩
  -- a star that stands for itself is escaped
  obtain ⟨_, _, _, _, hstars⟩ := (Pattern.spells_escapeLiteral path).cut hfront.symm
  cases hstars with
  | plain hc _ => exact absurd hc (by decide)

/-- **The directory patterns of a run** are those of everything below a directory. -/
lemma IsProper.recursiveDirectory?_text (h : g.IsProper) :
    Pattern.recursiveDirectory? g.text = g.directory? := by
  have hext : ∀ (lead : Text) {extension : Text}, IsExtension extension →
      Pattern.recursiveDirectory? (lead ++ extension) = none := by
    intro lead extension he
    unfold Pattern.recursiveDirectory?
    refine if_neg fun hend => ?_
    obtain ⟨front, hfront⟩ := endsWith_iff.1 hend
    obtain ⟨most, c, hc⟩ := List.eq_nil_or_concat' extension |>.resolve_left he.1
    have hlast := congrArg List.getLast? hfront
    rw [hc, ← List.append_assoc, List.getLast?_concat] at hlast
    obtain rfl : .of '*' = c := by simpa [Pattern.recursiveTail] using hlast
    exact he.not_mem (c := .of '*') (by decide) (hc ▸ List.mem_append_right _ List.mem_cons_self)
  cases g with
  | file path =>
    unfold Pattern.recursiveDirectory?
    exact if_neg (by simp [endsWith_text_file])
  | tree directory =>
    exact (Pattern.spells_escapeLiteral directory).recursiveDirectory?_append (IsTame.ne_nil h)
  | direct directory extension =>
    have hnone := hext (Pattern.escapeLiteral directory ++ [.of '/', .of '*', .of '.']) h.2
    rwa [List.append_assoc] at hnone
  | deep directory extension =>
    have hnone :=
      hext (Pattern.escapeLiteral directory ++
        [.of '/', .of '*', .of '*', .of '/', .of '*', .of '.']) h.2
    rwa [List.append_assoc] at hnone
  | everywhere extension => exact hext [.of '*', .of '*', .of '/', .of '*', .of '.'] h

end Glob

end GlobPreset
