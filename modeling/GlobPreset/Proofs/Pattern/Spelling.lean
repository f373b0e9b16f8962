import GlobPreset.Pattern.Base
import GlobPreset.Proofs.Path.Names
import GlobPreset.Proofs.Pattern.Groups

/-!
# Spellings of literal texts

A pattern spells a literal text if every character with a meaning in patterns is escaped in it.
Escapes do not reach across a slash, so a spelling is one segment by segment; and it has neither
wildcards nor groups of its own, so what a pattern makes of a spelling in front of it is decided by
what follows.

## Main definitions

* `Pattern.Spells` — a pattern spells a literal text.

## Main results

* `Pattern.spells_escapeLiteral` — writing a literal text as a pattern spells it.
* `Pattern.Spells.segments` — spellings are spellings segment by segment.
* `Pattern.Spells.unescape_append`, `Pattern.Spells.hasUnescaped_append`,
  `Pattern.Spells.alternatives_append` — reading a pattern that starts with a spelling.
-/

set_option autoImplicit false

namespace GlobPreset.Pattern

open Text Wildmatch

/-- A pattern spells a literal text: a character stands for itself, or is escaped. Neither a slash
nor a dot is ever escaped. -/
inductive Spells : (pattern text : Text) → Prop
  | nil : Spells [] []
  | plain {c : CodePoint} {s t : Text} (hc : needsEscape c = false) (h : Spells s t) :
      Spells (c :: s) (c :: t)
  | escaped {c : CodePoint} {s t : Text} (hc : c ≠ .of '/' ∧ c ≠ .of '.') (h : Spells s t) :
      Spells (.of '\\' :: c :: s) (c :: t)

namespace Spells

variable {s t : Text}

/-! ### Making spellings -/

/-- Spellings put together spell the texts put together. -/
lemma append {s' t' : Text} (h : Spells s t) (h' : Spells s' t') : Spells (s ++ s') (t ++ t') := by
  induction h with
  | nil => exact h'
  | plain hc _ ih => exact .plain hc ih
  | escaped hc _ ih => exact .escaped hc ih

/-- A text with nothing to escape spells itself. -/
lemma of_plain (h : ∀ c ∈ t, needsEscape c = false) : Spells t t := by
  induction t with
  | nil => exact .nil
  | cons c t ih =>
    exact .plain (h c List.mem_cons_self) (ih fun d hd => h d (List.mem_cons_of_mem _ hd))

/-- A spelling is empty only if it spells nothing. -/
lemma ne_nil (h : Spells s t) (ht : t ≠ []) : s ≠ [] := by
  cases h with
  | nil => exact absurd rfl ht
  | plain _ _ => exact List.cons_ne_nil _ _
  | escaped _ _ => exact List.cons_ne_nil _ _

/-! ### Reading spellings -/

/-- A character that needs no escape is no backslash. -/
lemma ne_backslash_of_plain {c : CodePoint} (hc : needsEscape c = false) : c ≠ .of '\\' := by
  rintro rfl
  exact absurd hc (by decide)

/-- Reading a spelling gives the text back. -/
lemma unescape_append (h : Spells s t) (r : Text) : unescape (s ++ r) = t ++ unescape r := by
  induction h with
  | nil => rfl
  | plain hc _ ih =>
    rw [List.cons_append, unescape_cons (ne_backslash_of_plain hc), ih, List.cons_append]
  | escaped _ _ ih => rw [List.cons_append, List.cons_append, unescape, ih, List.cons_append]

/-- **What a spelling is read as** without escapes is what it spells. -/
lemma unescape_eq (h : Spells s t) : unescape s = t := by
  have := h.unescape_append []
  rwa [List.append_nil, show unescape [] = [] from rfl, List.append_nil] at this

/-- A spelling has no unescaped character of a class that has to be escaped. -/
lemma hasUnescaped_append {special : CodePoint → Bool}
    (hspecial : ∀ c, needsEscape c = false → special c = false) (h : Spells s t) (r : Text) :
    hasUnescaped special (s ++ r) = hasUnescaped special r := by
  induction h with
  | nil => rfl
  | plain hc _ ih =>
    rw [List.cons_append, hasUnescaped_cons (ne_backslash_of_plain hc), hspecial _ hc, ih,
      Bool.false_or]
  | escaped _ _ ih => rw [List.cons_append, List.cons_append, hasUnescaped, ih]

/-- A character that needs no escape has no meaning in a pattern. -/
lemma isMagic_of_plain {c : CodePoint} (hc : needsEscape c = false) : isMagic c = false := by
  simp only [needsEscape, Bool.or_eq_false_iff] at hc
  exact hc.1.1

/-- A character that needs no escape is no wildcard. -/
lemma isWildcard_of_plain {c : CodePoint} (hc : needsEscape c = false) : isWildcard c = false := by
  have hm := isMagic_of_plain hc
  simp only [isMagic, Bool.or_eq_false_iff] at hm
  exact hm.1.1

/-- A spelling in front brings no wildcard. -/
lemma hasWildcard_append (h : Spells s t) (r : Text) : hasWildcard (s ++ r) = hasWildcard r :=
  h.hasUnescaped_append (fun _ => isWildcard_of_plain) r

/-- A spelling in front brings no character with a meaning. -/
lemma hasMagic_append (h : Spells s t) (r : Text) : hasMagic (s ++ r) = hasMagic r :=
  h.hasUnescaped_append (fun _ => isMagic_of_plain) r

/-- A spelling has no wildcards. -/
lemma hasWildcard_eq (h : Spells s t) : hasWildcard s = false := by
  have := h.hasWildcard_append []
  rwa [List.append_nil] at this

/-- A spelling has no characters with a meaning. -/
lemma hasMagic_eq (h : Spells s t) : hasMagic s = false := by
  have := h.hasMagic_append []
  rwa [List.append_nil] at this

/-- No backslash of a spelling dangles. -/
lemma dangles_eq (h : Spells s t) : dangles s = false := by
  induction h with
  | nil => rfl
  | plain hc _ ih => rw [dangles_cons (ne_backslash_of_plain hc), ih]
  | escaped _ _ ih => rw [dangles, ih]

/-- A spelling of a text that is not empty is a literal segment. -/
lemma isLiteral (h : Spells s t) (ht : t ≠ []) : IsLiteral s :=
  ⟨h.ne_nil ht, h.hasWildcard_eq, h.dangles_eq⟩

/-- The characters of a spelling are those of the text, and backslashes. -/
lemma mem_or (h : Spells s t) {c : CodePoint} (hc : c ∈ s) : c ∈ t ∨ c = .of '\\' := by
  induction h with
  | nil => cases hc
  | plain _ _ ih =>
    rcases List.mem_cons.1 hc with rfl | hc
    · exact .inl List.mem_cons_self
    · exact (ih hc).imp_left (List.mem_cons_of_mem _)
  | escaped _ _ ih =>
    rcases List.mem_cons.1 hc with rfl | hc
    · exact .inr rfl
    · rcases List.mem_cons.1 hc with rfl | hc
      · exact .inl List.mem_cons_self
      · exact (ih hc).imp_left (List.mem_cons_of_mem _)

/-- A spelling ends as the text does. -/
lemma getLast?_eq (h : Spells s t) : s.getLast? = t.getLast? := by
  induction h with
  | nil => rfl
  | plain _ _ ih => rw [List.getLast?_cons, List.getLast?_cons, ih]
  | escaped _ _ ih => rw [List.getLast?_cons_cons, List.getLast?_cons, List.getLast?_cons, ih]

/-- A spelling that is cut at a slash spells the two sides. -/
lemma cut (h : Spells s t) {s₁ s₂ : Text} (hs : s = s₁ ++ .of '/' :: s₂) :
    ∃ t₁ t₂, t = t₁ ++ .of '/' :: t₂ ∧ Spells s₁ t₁ ∧ Spells s₂ t₂ := by
  induction h generalizing s₁ with
  | nil => simp at hs
  | @plain c s t hc h ih =>
    cases s₁ with
    | nil =>
      obtain ⟨rfl, rfl⟩ := List.cons.inj hs
      exact ⟨[], t, rfl, .nil, h⟩
    | cons d s₁ =>
      simp only [List.cons_append, List.cons.injEq] at hs
      obtain ⟨rfl, hs⟩ := hs
      obtain ⟨t₁, t₂, rfl, h₁, h₂⟩ := ih hs
      exact ⟨c :: t₁, t₂, rfl, .plain hc h₁, h₂⟩
  | @escaped c s t hc h ih =>
    match s₁ with
    | [] => simp at hs
    | [d] => simp [hc.1] at hs
    | d :: e :: s₁ =>
      simp only [List.cons_append, List.cons.injEq] at hs
      obtain ⟨rfl, rfl, hs⟩ := hs
      obtain ⟨t₁, t₂, rfl, h₁, h₂⟩ := ih hs
      exact ⟨c :: t₁, t₂, rfl, .escaped hc h₁, h₂⟩

/-! ### Segments -/

/-- **Spellings are spellings segment by segment.** -/
lemma segments (h : Spells s t) :
    List.Forall₂ Spells (Path.segments s) (Path.segments t) := by
  induction h with
  | nil => exact .cons .nil .nil
  | @plain c s t hc h ih =>
    by_cases hslash : c = .of '/'
    · subst hslash
      have hs : Path.segments (.of '/' :: s) = [] :: Path.segments s := splitOn_cons_sep s
      have ht : Path.segments (.of '/' :: t) = [] :: Path.segments t := splitOn_cons_sep t
      rw [hs, ht]
      exact .cons .nil ih
    · obtain ⟨p, ps, hps⟩ := List.exists_cons_of_ne_nil (Path.segments_ne_nil s)
      obtain ⟨q, qs, hqs⟩ := List.exists_cons_of_ne_nil (Path.segments_ne_nil t)
      have hs : Path.segments (c :: s) = (c :: p) :: ps := splitOn_cons_of_ne hslash hps
      have ht : Path.segments (c :: t) = (c :: q) :: qs := splitOn_cons_of_ne hslash hqs
      rw [hps, hqs] at ih
      rw [hs, ht]
      cases ih with
      | cons hfirst hrest => exact .cons (.plain hc hfirst) hrest
  | @escaped c s t hc h ih =>
    have hslash := hc.1
    obtain ⟨p, ps, hps⟩ := List.exists_cons_of_ne_nil (Path.segments_ne_nil s)
    obtain ⟨q, qs, hqs⟩ := List.exists_cons_of_ne_nil (Path.segments_ne_nil t)
    have hs : Path.segments (.of '\\' :: c :: s) = (.of '\\' :: c :: p) :: ps :=
      splitOn_cons_of_ne (by decide) (splitOn_cons_of_ne hslash hps)
    have ht : Path.segments (c :: t) = (c :: q) :: qs := splitOn_cons_of_ne hslash hqs
    rw [hps, hqs] at ih
    rw [hs, ht]
    cases ih with
    | cons hfirst hrest => exact .cons (.escaped hc hfirst) hrest

/-- Spellings are read one by one. -/
lemma map_unescape {ps qs : List Text} (h : List.Forall₂ Spells ps qs) : ps.map unescape = qs := by
  induction h with
  | nil => rfl
  | cons hfirst _ ih => rw [List.map_cons, hfirst.unescape_eq, ih]

/-- The segments of a spelling are read as those of the text. -/
lemma map_unescape_segments (h : Spells s t) :
    (Path.segments s).map unescape = Path.segments t :=
  map_unescape h.segments

/-- The segments of a spelling of a path without empty segments are literal. -/
lemma isLiteral_of_mem (h : Spells s t) (ht : ∀ q ∈ Path.segments t, q ≠ []) :
    ∀ p ∈ Path.segments s, IsLiteral p := by
  have hall := h.segments
  generalize Path.segments s = ps at hall ⊢
  generalize Path.segments t = qs at hall ht
  induction hall with
  | nil => exact fun p hp => absurd hp List.not_mem_nil
  | cons hfirst _ ih =>
    intro p hp
    rcases List.mem_cons.1 hp with rfl | hp
    · exact hfirst.isLiteral (ht _ List.mem_cons_self)
    · exact ih (fun q hq => ht q (List.mem_cons_of_mem _ hq)) p hp

/-! ### Groups -/

/-- No group begins in a spelling. -/
lemma isClosed (h : Spells s t) : IsClosed s where
  noOpener := by
    have hspecial : ∀ c, needsEscape c = false → (c == .of '{') = false := by
      intro c hc
      rw [beq_eq_false_iff_ne]
      rintro rfl
      exact absurd hc (by decide)
    simpa [hasUnescaped] using h.hasUnescaped_append hspecial []
  dangles_eq := h.dangles_eq

/-- A spelling in front of a text without braces has no groups. -/
lemma alternatives_append {r : Text} (h : Spells s t) (hr : .of '{' ∉ r) :
    alternatives (s ++ r) = [s ++ r] :=
  alternatives_of_noGroup (firstGroup?_append h.isClosed hr)

end Spells

/-! ### Writing literal texts -/

/-- An escaped character spells the character. -/
lemma spells_escapeChar (c : CodePoint) : Spells (escapeChar c) [c] := by
  unfold escapeChar
  split
  · rename_i hc
    have hslash : c ≠ .of '/' ∧ c ≠ .of '.' := by
      constructor <;> rintro rfl <;> exact absurd hc (by decide)
    exact .escaped hslash .nil
  · rename_i hc
    exact .plain (by simpa using hc) .nil

/-- Behind its first character, the pattern of a literal text is written character by character. -/
lemma escapeTail_cons (c : CodePoint) (t : Text) :
    ∃ x, Spells x [c] ∧ escapeTail (c :: t) = x ++ escapeTail t := by
  rw [escapeTail]
  refine ⟨_, ?_, rfl⟩
  split
  · rename_i hc
    simp only [Bool.and_eq_true, decide_eq_true_eq] at hc
    rw [hc.1]
    exact .escaped (by decide) .nil
  · exact spells_escapeChar c

/-- The pattern of a literal text spells its first character first. -/
lemma escapeLiteral_cons (c : CodePoint) (t : Text) :
    ∃ x, Spells x [c] ∧ escapeLiteral (c :: t) = x ++ escapeTail t := by
  rw [escapeLiteral]
  refine ⟨_, ?_, rfl⟩
  split
  · rename_i hc
    have hslash : c ≠ .of '/' ∧ c ≠ .of '.' := by
      constructor <;> rintro rfl <;> exact absurd hc (by decide)
    exact .escaped hslash .nil
  · split
    · rename_i hc
      simp only [Bool.and_eq_true, decide_eq_true_eq] at hc
      rw [hc.1]
      exact .escaped (by decide) .nil
    · exact spells_escapeChar c

/-- Escaped characters spell the text. -/
lemma spells_escapeTail (t : Text) : Spells (escapeTail t) t := by
  induction t with
  | nil => exact .nil
  | cons c t ih =>
    obtain ⟨x, hx, heq⟩ := escapeTail_cons c t
    rw [heq]
    exact hx.append ih

/-- **Writing a literal text as a pattern spells it.** -/
theorem spells_escapeLiteral (t : Text) : Spells (escapeLiteral t) t := by
  cases t with
  | nil => exact .nil
  | cons c t =>
    obtain ⟨x, hx, heq⟩ := escapeLiteral_cons c t
    rw [heq]
    exact hx.append (spells_escapeTail t)

/-- The pattern of a literal text starts with no mark and no blank. -/
lemma head?_escapeLiteral {t : Text} {c : CodePoint} (h : (escapeLiteral t).head? = some c) :
    needsLeadEscape c = false ∧ (c = .of '\\' ∨ t.head? = some c) := by
  cases t with
  | nil => cases h
  | cons d t =>
    rw [escapeLiteral] at h
    split at h
    · obtain rfl : .of '\\' = c := by simpa using h
      exact ⟨by decide, .inl rfl⟩
    · rename_i hlead
      split at h
      · obtain rfl : .of '\\' = c := by simpa using h
        exact ⟨by decide, .inl rfl⟩
      · unfold escapeChar at h
        split at h
        · obtain rfl : .of '\\' = c := by simpa using h
          exact ⟨by decide, .inl rfl⟩
        · obtain rfl : d = c := by simpa using h
          exact ⟨by simpa using hlead, .inr rfl⟩

/-- The tail of a literal text ends as the text does, a space being escaped. -/
lemma escapeTail_concat (t : Text) (c : CodePoint) :
    ∃ x, escapeTail (t ++ [c]) = x ++ [c] ∧
      (c = .of ' ' → ∃ y, Spells y t ∧ x = y ++ [.of '\\']) := by
  induction t with
  | nil =>
    by_cases hc : c = .of ' '
    · exact ⟨[.of '\\'], by simp [escapeTail, hc], fun _ => ⟨[], .nil, rfl⟩⟩
    · by_cases he : needsEscape c = true
      · exact ⟨[.of '\\'], by simp [escapeTail, escapeChar, hc, he], fun h => absurd h hc⟩
      · exact ⟨[], by simp [escapeTail, escapeChar, hc, he], fun h => absurd h hc⟩
  | cons d t ih =>
    obtain ⟨x, hx, hspace⟩ := ih
    obtain ⟨z, hz, heq⟩ := escapeTail_cons d (t ++ [c])
    rw [List.cons_append, heq, hx, ← List.append_assoc]
    refine ⟨_, rfl, fun hc => ?_⟩
    obtain ⟨y, hy, rfl⟩ := hspace hc
    exact ⟨_, hz.append hy, (List.append_assoc _ _ _).symm⟩

/-- The pattern of a literal text ends as the text does, a space being escaped. -/
lemma escapeLiteral_concat (t : Text) (c : CodePoint) :
    ∃ x, escapeLiteral (t ++ [c]) = x ++ [c] ∧
      (c = .of ' ' → ∃ y, Spells y t ∧ x = y ++ [.of '\\']) := by
  cases t with
  | nil =>
    rw [List.nil_append, escapeLiteral, escapeTail, List.append_nil]
    by_cases hlead : needsLeadEscape c = true
    · exact ⟨[.of '\\'], by simp [hlead], fun _ => ⟨[], .nil, rfl⟩⟩
    · by_cases hc : c = .of ' '
      · exact ⟨[.of '\\'], by simp [hc], fun _ => ⟨[], .nil, rfl⟩⟩
      · by_cases he : needsEscape c = true
        · exact ⟨[.of '\\'], by simp [escapeChar, hc, he, hlead], fun h => absurd h hc⟩
        · exact ⟨[], by simp [escapeChar, hc, he, hlead], fun h => absurd h hc⟩
  | cons d t =>
    obtain ⟨x, hx, hspace⟩ := escapeTail_concat t c
    obtain ⟨z, hz, heq⟩ := escapeLiteral_cons d (t ++ [c])
    rw [List.cons_append, heq, hx, ← List.append_assoc]
    refine ⟨_, rfl, fun hc => ?_⟩
    obtain ⟨y, hy, rfl⟩ := hspace hc
    exact ⟨_, hz.append hy, (List.append_assoc _ _ _).symm⟩

end GlobPreset.Pattern
