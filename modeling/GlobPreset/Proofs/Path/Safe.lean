import GlobPreset.Path.Safety
import GlobPreset.Proofs.Path.Names

/-!
# What safety says about segments

The check of a path reads its separators in every way. For the segments between plain slashes it
says that none of them is a parent segment.

## Main results

* `Path.segments_toSlashes_append` — reading backslashes as separators, segment by segment.
* `Path.ne_dots_of_safe` — a safe path has no parent segment.
* `Path.hasDrive_cons_cons` — only the first two characters of most texts can make a drive.
-/

set_option autoImplicit false

namespace GlobPreset.Path

open Text

/-- Backslashes are turned part by part. -/
lemma toSlashes_append (s t : Text) : toSlashes (s ++ t) = toSlashes s ++ toSlashes t :=
  List.map_append

/-- A slash stays a slash. -/
lemma toSlashes_cons_slash (t : Text) : toSlashes (.of '/' :: t) = .of '/' :: toSlashes t := rfl

/-- A text without backslashes stays as it is. -/
lemma toSlashes_eq_self {t : Text} (h : .of '\\' ∉ t) : toSlashes t = t := by
  unfold toSlashes
  conv_rhs => rw [← List.map_id t]
  refine List.map_congr_left fun c hc => ?_
  have hne : c ≠ .of '\\' := fun e => h (e ▸ hc)
  simp [hne]

/-- No backslash is left of it. -/
lemma backslash_not_mem_toSlashes (t : Text) : .of '\\' ∉ toSlashes t := by
  intro h
  obtain ⟨c, -, hc⟩ := List.mem_map.1 h
  split at hc
  · exact absurd hc (by decide)
  · rename_i hne
    exact hne hc

/-- Reading backslashes as separators, on both sides of a slash. -/
lemma segments_toSlashes_append (s t : Text) :
    segments (toSlashes (s ++ .of '/' :: t)) =
      segments (toSlashes s) ++ segments (toSlashes t) := by
  rw [toSlashes_append, toSlashes_cons_slash, segments_append_slash]

/-- A segment without separators of any kind is a segment however separators are read. -/
lemma mem_segments_toSlashes {parts : List Text} {s : Text} (hs : s ∈ parts) (hslash : .of '/' ∉ s)
    (hback : .of '\\' ∉ s) : s ∈ segments (toSlashes (ofSegments parts)) := by
  induction parts with
  | nil => cases hs
  | cons p rest ih =>
    have hself : segments (toSlashes s) = [s] := by
      rw [toSlashes_eq_self hback]
      exact splitOn_of_not_mem hslash
    by_cases hrest : rest = []
    · subst hrest
      rw [List.mem_singleton.1 hs] at hself ⊢
      rw [ofSegments_singleton, hself]
      exact List.mem_singleton_self p
    · rw [ofSegments_cons p hrest, segments_toSlashes_append, List.mem_append]
      rcases List.mem_cons.1 hs with rfl | hs
      · exact .inl (by rw [hself]; exact List.mem_singleton_self s)
      · exact .inr (ih hs)

/-- A path is safe if it passes each of the three checks. -/
lemma unsafeCause?_eq_none {path : Text} :
    unsafeCause? path = none ↔
      .of '\x00' ∉ path ∧ isAbsolute path = false ∧ hasParentSegment (toSlashes path) = false := by
  unfold unsafeCause?
  split
  · rename_i h
    have hmem : .of '\x00' ∈ path := by simpa using h
    simp [hmem]
  · rename_i h
    have hmem : .of '\x00' ∉ path := by simpa using h
    split
    · rename_i ha
      simp [ha]
    · rename_i ha
      split
      · rename_i hp
        simp [hp]
      · rename_i hp
        simp [hmem, ha, hp]

/-- A path passes the check if there is no cause to refuse it. -/
lemma checkSafe_eq_ok {role path : Text} :
    checkSafe role path = .ok () ↔ unsafeCause? path = none := by
  unfold checkSafe
  cases unsafeCause? path <;> simp

/-- **A safe path has no parent segment.** -/
lemma ne_dots_of_safe {parts : List Text} (h : unsafeCause? (ofSegments parts) = none) :
    ∀ s ∈ parts, s ≠ [.of '.', .of '.'] := by
  rintro s hs rfl
  have hmem := mem_segments_toSlashes hs (by decide) (by decide)
  have hparent : hasParentSegment (toSlashes (ofSegments parts)) = true :=
    List.any_eq_true.2 ⟨_, hmem, by decide⟩
  rw [(unsafeCause?_eq_none.1 h).2.2] at hparent
  cases hparent

/-! ### Drives -/

/-- A character is read as a separator of some platform. -/
def isSeparator (c : CodePoint) : Bool := c == .of '/' || c == .of '\\'

/-- A character that separates nothing is no backslash when slashes are turned into these. -/
lemma toBackslash_eq {c : CodePoint} (h : isSeparator c = false) :
    (if c = .of '/' then .of '\\' else c) ≠ .of '\\' := by
  simp only [isSeparator, Bool.or_eq_false_iff, beq_eq_false_iff_ne] at h
  rw [if_neg h.1]
  exact h.2

/-- One character makes no drive. -/
lemma hasDrive_singleton (c : CodePoint) : hasDrive [c] = false := by
  unfold hasDrive
  split
  · rename_i heq
    simp [toBackslashes] at heq
  · rename_i heq
    simp [toBackslashes] at heq
  · rfl

/-- A text that does not start with two separators has a drive only if it starts with a letter and
a colon. -/
lemma hasDrive_cons_cons {x y : CodePoint} (h : isSeparator x = false ∨ isSeparator y = false)
    (rest : Text) : hasDrive (x :: y :: rest) = (y == .of ':' && isDriveLetter x) := by
  have hletter : isDriveLetter (if x = .of '/' then .of '\\' else x) = isDriveLetter x := by
    split
    · rename_i hx
      subst hx
      decide
    · rfl
  have hback : toBackslashes (x :: y :: rest) =
      (if x = .of '/' then .of '\\' else x) :: (if y = .of '/' then .of '\\' else y) ::
        toBackslashes rest := rfl
  rw [hasDrive, hback]
  by_cases hy : y = .of ':'
  · subst hy
    rw [if_neg (by decide : ¬ CodePoint.of ':' = .of '/')]
    split
    · rename_i heq
      simp at heq
    · rename_i heq
      simp only [List.cons.injEq, true_and] at heq
      rw [← heq.1, hletter]
      rfl
    · rename_i hno
      exact absurd rfl (hno _ _)
  · have hcolon : (if y = .of '/' then .of '\\' else y) ≠ .of ':' := by
      split
      · decide
      · exact hy
    split
    · rename_i heq
      simp only [List.cons.injEq] at heq
      rcases h with h | h
      · exact absurd heq.1 (toBackslash_eq h)
      · exact absurd heq.2.1 (toBackslash_eq h)
    · rename_i heq
      simp only [List.cons.injEq] at heq
      exact absurd heq.2.1 hcolon
    · simp [hy]

end GlobPreset.Path
