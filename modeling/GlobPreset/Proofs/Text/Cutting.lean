import Mathlib.Data.List.Basic
import Mathlib.Data.List.DropRight
import GlobPreset.Text.Basic

/-!
# Cutting and gluing

The laws of the elementary operations on texts: what cutting at a separator does to a concatenation
and to a glued text, what stands around a last occurrence, and what is left when the start or the
end of a text is dropped.

## Main results

* `Text.splitOn_append_sep`, `Text.splitOn_joinWith` — cutting at a separator, and cutting what was
  glued from pieces without it.
* `Text.splitOn_append_of_not_mem`, `Text.splitOn_append_last` — what has no separator goes to the
  first or the last piece.
* `Text.splitLast?_eq_some`, `Text.splitLast?_eq_none` — the last occurrence of a character.
* `Text.dropLead?_eq_some`, `Text.startsWith_iff`, `Text.endsWith_iff` — starts and ends.
* `Text.dropEndWhile_eq_rdropWhile` — dropping from the end.
-/

set_option autoImplicit false

namespace GlobPreset.Text

/-! ### Cutting at a separator -/

section Cutting

variable {sep : CodePoint}

/-- A separator starts a new piece. -/
@[simp] lemma splitOn_cons_sep (t : Text) : splitOn sep (sep :: t) = [] :: splitOn sep t := by
  simp [splitOn]

/-- A character that is no separator goes to the first piece. -/
lemma splitOn_cons_of_ne {c : CodePoint} (h : c ≠ sep) {t piece : Text} {pieces : List Text}
    (ht : splitOn sep t = piece :: pieces) : splitOn sep (c :: t) = (c :: piece) :: pieces := by
  simp [splitOn, h, ht]

/-- The pieces hold no separator. -/
lemma not_mem_of_mem_splitOn {t piece : Text} (h : piece ∈ splitOn sep t) : sep ∉ piece := by
  induction t generalizing piece with
  | nil => simp_all [splitOn]
  | cons c t ih =>
    by_cases hc : c = sep
    · subst hc
      rw [splitOn_cons_sep] at h
      rcases List.mem_cons.1 h with rfl | h
      · exact List.not_mem_nil
      · exact ih h
    · obtain ⟨first, others, ht⟩ := List.exists_cons_of_ne_nil (splitOn_ne_nil sep t)
      rw [splitOn_cons_of_ne hc ht] at h
      rcases List.mem_cons.1 h with rfl | h
      · have hfirst : sep ∉ first := ih (by rw [ht]; exact List.mem_cons_self)
        simpa [Ne.symm hc] using hfirst
      · exact ih (by rw [ht]; exact List.mem_cons_of_mem _ h)

/-- The characters of a piece are characters of the text. -/
lemma mem_of_mem_splitOn {t piece : Text} {c : CodePoint} (h : piece ∈ splitOn sep t)
    (hc : c ∈ piece) : c ∈ t := by
  induction t generalizing piece with
  | nil => simp_all [splitOn]
  | cons d t ih =>
    by_cases hd : d = sep
    · subst hd
      rw [splitOn_cons_sep] at h
      rcases List.mem_cons.1 h with rfl | h
      · simp at hc
      · exact List.mem_cons_of_mem _ (ih h hc)
    · obtain ⟨first, others, ht⟩ := List.exists_cons_of_ne_nil (splitOn_ne_nil sep t)
      rw [splitOn_cons_of_ne hd ht] at h
      rcases List.mem_cons.1 h with rfl | h
      · rcases List.mem_cons.1 hc with rfl | hc
        · exact List.mem_cons_self
        · exact List.mem_cons_of_mem _ (ih (by rw [ht]; exact List.mem_cons_self) hc)
      · exact List.mem_cons_of_mem _ (ih (by rw [ht]; exact List.mem_cons_of_mem _ h) hc)

/-- A text without the separator is one piece. -/
lemma splitOn_of_not_mem {t : Text} (h : sep ∉ t) : splitOn sep t = [t] := by
  induction t with
  | nil => rfl
  | cons c t ih =>
    rw [List.mem_cons, not_or] at h
    exact splitOn_cons_of_ne (Ne.symm h.1) (ih h.2)

/-- **A separator cuts a text in two**, which are cut apart from each other. -/
lemma splitOn_append_sep (s t : Text) :
    splitOn sep (s ++ sep :: t) = splitOn sep s ++ splitOn sep t := by
  induction s with
  | nil => simp [splitOn]
  | cons c s ih =>
    by_cases hc : c = sep
    · subst hc
      simp [ih]
    · obtain ⟨piece, pieces, hs⟩ := List.exists_cons_of_ne_nil (splitOn_ne_nil sep s)
      rw [hs, List.cons_append] at ih
      rw [List.cons_append, splitOn_cons_of_ne hc ih, splitOn_cons_of_ne hc hs, List.cons_append]

/-- A text without the separator in front goes to the first piece. -/
lemma splitOn_append_of_not_mem {s : Text} (hs : sep ∉ s) {t piece : Text} {pieces : List Text}
    (ht : splitOn sep t = piece :: pieces) :
    splitOn sep (s ++ t) = (s ++ piece) :: pieces := by
  induction s with
  | nil => exact ht
  | cons c s ih =>
    rw [List.mem_cons, not_or] at hs
    rw [List.cons_append, splitOn_cons_of_ne (Ne.symm hs.1) (ih hs.2), List.cons_append]

end Cutting

/-! ### Gluing -/

/-- Gluing a piece in front of others. -/
lemma joinWith_cons (sep piece : Text) {pieces : List Text} (h : pieces ≠ []) :
    joinWith sep (piece :: pieces) = piece ++ sep ++ joinWith sep pieces := by
  cases pieces with
  | nil => exact absurd rfl h
  | cons next rest => rfl

/-- Characters in front of the first piece are in front of all. -/
lemma joinWith_append_cons (sep cs first : Text) (others : List Text) :
    joinWith sep ((cs ++ first) :: others) = cs ++ joinWith sep (first :: others) := by
  cases others <;> simp [joinWith]

/-- Gluing two lists of pieces. -/
lemma joinWith_append (sep : Text) {l m : List Text} (hl : l ≠ []) (hm : m ≠ []) :
    joinWith sep (l ++ m) = joinWith sep l ++ sep ++ joinWith sep m := by
  induction l with
  | nil => exact absurd rfl hl
  | cons piece rest ih =>
    by_cases hrest : rest = []
    · subst hrest
      rw [List.singleton_append, joinWith_cons sep piece hm]
      rfl
    · have hne : rest ++ m ≠ [] := by simp [hrest]
      rw [List.cons_append, joinWith_cons sep piece hne, ih hrest, joinWith_cons sep piece hrest]
      simp only [List.append_assoc]

/-- **Cutting undoes gluing** pieces that hold no separator. -/
lemma splitOn_joinWith (sep : CodePoint) {pieces : List Text} (hne : pieces ≠ [])
    (h : ∀ piece ∈ pieces, sep ∉ piece) : splitOn sep (joinWith [sep] pieces) = pieces := by
  induction pieces with
  | nil => exact absurd rfl hne
  | cons piece rest ih =>
    have hpiece : sep ∉ piece := h piece List.mem_cons_self
    by_cases hrest : rest = []
    · subst hrest
      exact splitOn_of_not_mem hpiece
    · have hglue : joinWith [sep] (piece :: rest) = piece ++ sep :: joinWith [sep] rest := by
        rw [joinWith_cons [sep] piece hrest]
        simp
      rw [hglue, splitOn_append_sep, splitOn_of_not_mem hpiece,
        ih hrest (fun p hp => h p (List.mem_cons_of_mem _ hp))]
      rfl

/-- A text without the separator behind goes to the last piece. -/
lemma splitOn_append_last {sep : CodePoint} {s t last : Text} {front : List Text}
    (hs : splitOn sep s = front ++ [last]) (ht : sep ∉ t) :
    splitOn sep (s ++ t) = front ++ [last ++ t] := by
  have hglue : s ++ t = joinWith [sep] (front ++ [last ++ t]) := by
    rw [← joinWith_splitOn sep s, hs]
    by_cases hfront : front = []
    · subst hfront
      rfl
    · rw [joinWith_append [sep] hfront (List.cons_ne_nil _ _),
        joinWith_append [sep] hfront (List.cons_ne_nil _ _)]
      simp only [joinWith, List.append_assoc]
  rw [hglue]
  refine splitOn_joinWith sep (by simp) fun piece hpiece hmem => ?_
  have hpieces : ∀ p ∈ front ++ [last], sep ∉ p := fun p hp =>
    not_mem_of_mem_splitOn (hs ▸ hp)
  rcases List.mem_append.1 hpiece with hp | hp
  · exact hpieces piece (List.mem_append_left _ hp) hmem
  · rw [List.mem_singleton.1 hp, List.mem_append] at hmem
    exact hmem.elim (hpieces last (List.mem_append_right _ (List.mem_singleton_self _))) ht

/-- The characters of a glued text are those of the pieces and of what is between. -/
lemma mem_joinWith {sep : Text} {c : CodePoint} {pieces : List Text} (h : c ∈ joinWith sep pieces) :
    c ∈ sep ∨ ∃ piece ∈ pieces, c ∈ piece := by
  induction pieces with
  | nil => simp [joinWith] at h
  | cons piece rest ih =>
    by_cases hrest : rest = []
    · subst hrest
      exact .inr ⟨piece, List.mem_cons_self, h⟩
    · rw [joinWith_cons sep piece hrest, List.mem_append, List.mem_append] at h
      rcases h with (h | h) | h
      · exact .inr ⟨piece, List.mem_cons_self, h⟩
      · exact .inl h
      · rcases ih h with h | ⟨p, hp, hc⟩
        · exact .inl h
        · exact .inr ⟨p, List.mem_cons_of_mem _ hp, hc⟩

/-! ### The last occurrence -/

/-- There is no last occurrence exactly if there is none. -/
lemma splitLast?_eq_none {c : CodePoint} {t : Text} : splitLast? c t = none ↔ c ∉ t := by
  induction t with
  | nil => simp [splitLast?]
  | cons d t ih =>
    rw [splitLast?]
    cases h : splitLast? c t with
    | some p =>
      have hmem : c ∈ t := by
        by_contra hn
        rw [ih.2 hn] at h
        exact absurd h (by simp)
      simp [hmem]
    | none =>
      have hmem : c ∉ t := ih.1 h
      by_cases hd : d = c
      · simp [hd]
      · simp [hd, hmem, Ne.symm hd]

/-- What stands before and after the last occurrence of a character. -/
lemma splitLast?_eq_some {c : CodePoint} {t before behind : Text} :
    splitLast? c t = some (before, behind) ↔ t = before ++ c :: behind ∧ c ∉ behind := by
  induction t generalizing before with
  | nil => simp [splitLast?]
  | cons d t ih =>
    rw [splitLast?]
    cases h : splitLast? c t with
    | some p =>
      obtain ⟨before', behind'⟩ := p
      have hmem : c ∈ t := by
        by_contra hn
        rw [splitLast?_eq_none.2 hn] at h
        exact absurd h (by simp)
      simp only [Option.some.injEq, Prod.mk.injEq]
      constructor
      · rintro ⟨rfl, rfl⟩
        have hrest := (@ih before').1 (by rw [h])
        exact ⟨by rw [hrest.1]; rfl, hrest.2⟩
      · rintro ⟨ht, hc⟩
        cases before with
        | nil =>
          obtain ⟨rfl, rfl⟩ := List.cons.inj ht
          exact absurd hmem hc
        | cons e before =>
          obtain ⟨rfl, htail⟩ := List.cons.inj ht
          have heq := (@ih before).2 ⟨htail, hc⟩
          rw [h] at heq
          simp_all
    | none =>
      have hmem : c ∉ t := splitLast?_eq_none.1 h
      by_cases hd : d = c
      · subst hd
        simp only [if_true, Option.some.injEq, Prod.mk.injEq]
        constructor
        · rintro ⟨rfl, rfl⟩
          exact ⟨rfl, hmem⟩
        · rintro ⟨ht, hc⟩
          cases before with
          | nil => exact ⟨rfl, (List.cons.inj ht).2⟩
          | cons e before =>
            obtain ⟨rfl, rfl⟩ := List.cons.inj ht
            exact absurd (by simp) hmem
      · simp only [hd, if_false, reduceCtorEq, false_iff]
        rintro ⟨ht, -⟩
        cases before with
        | nil => exact hd (List.cons.inj ht).1
        | cons e before =>
          obtain ⟨rfl, rfl⟩ := List.cons.inj ht
          exact hmem (by simp)

/-! ### Starts and ends -/

/-- Dropping a start leaves what the start is continued by. -/
lemma dropLead?_eq_some {lead t rest : Text} :
    dropLead? lead t = some rest ↔ t = lead ++ rest := by
  induction lead generalizing t with
  | nil => simp [dropLead?]
  | cons c lead ih =>
    cases t with
    | nil => simp [dropLead?]
    | cons d t =>
      by_cases h : c = d
      · subst h
        simp [dropLead?, ih]
      · simp [dropLead?, h, Ne.symm h]

/-- A character behind a text that is not in the start goes to what follows the start. -/
lemma dropLead?_concat {lead : Text} {c : CodePoint} (hc : c ∉ lead) (t : Text) :
    dropLead? lead (t ++ [c]) = (dropLead? lead t).map (· ++ [c]) := by
  induction lead generalizing t with
  | nil => simp [dropLead?]
  | cons b lead ih =>
    rw [List.mem_cons, not_or] at hc
    cases t with
    | nil => simp [dropLead?, Ne.symm hc.1]
    | cons d t =>
      by_cases h : b = d
      · simp [dropLead?, h, ih hc.2]
      · simp [dropLead?, h]

/-- The test of a start. -/
lemma startsWith_iff {t lead : Text} : startsWith t lead = true ↔ lead <+: t := by
  simp [startsWith]

/-- The test of an end. -/
lemma endsWith_iff {t tail : Text} : endsWith t tail = true ↔ tail <:+ t := by
  simp [endsWith]

/-- Dropping from the end is the library's function for it. -/
lemma dropEndWhile_eq_rdropWhile (p : CodePoint → Bool) (t : Text) :
    dropEndWhile p t = t.rdropWhile p := by
  induction t using List.reverseRecOn with
  | nil => rfl
  | append_singleton t c ih =>
    have key : ∀ s : Text, dropEndWhile p (s ++ [c]) =
        if p c = true then dropEndWhile p s else s ++ [c] := by
      intro s
      induction s with
      | nil => simp [dropEndWhile]
      | cons d s ihs =>
        by_cases hc : p c = true
        · simp only [hc, if_true] at ihs ⊢
          simp only [List.cons_append, dropEndWhile, ihs]
        · simp only [hc] at ihs ⊢
          simp only [List.cons_append, dropEndWhile, ihs]
          cases s <;> simp
    rw [key, List.rdropWhile_concat, ih]

/-- Dropping characters of a class from the end leaves a text alone that ends otherwise. -/
lemma dropEndWhile_eq_self {p : CodePoint → Bool} {t : Text} (h : ∀ c ∈ t.getLast?, p c = false) :
    dropEndWhile p t = t := by
  rw [dropEndWhile_eq_rdropWhile, List.rdropWhile_eq_self_iff]
  intro hne
  simpa using h (t.getLast hne) (by simp [List.getLast?_eq_some_getLast hne])

/-- The text without its end of a known length. -/
@[simp] lemma dropEnd_append (s tail : Text) : dropEnd tail.length (s ++ tail) = s := by
  simp [dropEnd]

end GlobPreset.Text
