import GlobPreset.Path.Location
import GlobPreset.Proofs.Text.Cutting
import GlobPreset.Walk

/-!
# Paths given by their names

A project path is the text of a list of names, none of which is empty, a dot or two dots. Such a
list and its text determine each other, so a statement about paths is made about lists of names
wherever that is simpler.

## Main definitions

* `Path.IsName` — a text that can be the name of an entry.
* `Path.IsPlain` — a path of names.
* `Path.inside` — the absolute path of names below a project.

## Main results

* `Path.segments_ofSegments` — names are given by their path.
* `Path.join_ofSegments` — continuing a path by a name.
* `Path.absolute_ofSegments`, `Path.inside_concat` — absolute paths, name by name.
* `Path.parent_ofSegments_concat`, `Path.extension_ofSegments_concat` — the parts of a path.
-/

set_option autoImplicit false

namespace GlobPreset.Path

open Text

/-! ### Names -/

/-- A text that can be the name of an entry. -/
structure IsName (s : Text) : Prop where
  /-- It is not empty. -/
  ne_nil : s ≠ []
  /-- It has no slash. -/
  noSlash : .of '/' ∉ s
  /-- It is no dot. -/
  ne_dot : s ≠ [.of '.']
  /-- It is not two dots. -/
  ne_dots : s ≠ [.of '.', .of '.']

instance (s : Text) : Decidable (IsName s) :=
  decidable_of_iff (s ≠ [] ∧ .of '/' ∉ s ∧ s ≠ [.of '.'] ∧ s ≠ [.of '.', .of '.'])
    ⟨fun ⟨h₁, h₂, h₃, h₄⟩ => ⟨h₁, h₂, h₃, h₄⟩, fun h => ⟨h.ne_nil, h.noSlash, h.ne_dot, h.ne_dots⟩⟩

/-- All texts of a list are names. -/
def AreNames (names : List Text) : Prop := ∀ s ∈ names, IsName s

instance (names : List Text) : Decidable (AreNames names) :=
  inferInstanceAs (Decidable (∀ s ∈ names, IsName s))

/-- Names put together are names. -/
lemma AreNames.append {l m : List Text} (hl : AreNames l) (hm : AreNames m) :
    AreNames (l ++ m) := by
  intro s hs
  rcases List.mem_append.1 hs with h | h
  · exact hl s h
  · exact hm s h

/-- The first ones of some names are names. -/
lemma AreNames.left {l m : List Text} (h : AreNames (l ++ m)) : AreNames l :=
  fun s hs => h s (List.mem_append_left m hs)

/-- The last ones of some names are names. -/
lemma AreNames.right {l m : List Text} (h : AreNames (l ++ m)) : AreNames m :=
  fun s hs => h s (List.mem_append_right l hs)

/-- No names are names. -/
@[simp] lemma areNames_nil : AreNames [] := fun _ h => absurd h List.not_mem_nil

/-- A single name makes names. -/
lemma areNames_singleton {s : Text} (h : IsName s) : AreNames [s] := by
  intro x hx
  rw [List.mem_singleton.1 hx]
  exact h

/-- A path of names. -/
def IsPlain (path : Text) : Prop := AreNames (segments path)

/-! ### Segments of a glued path -/

/-- **Names are given by their path.** -/
lemma segments_ofSegments {names : List Text} (hne : names ≠ []) (h : AreNames names) :
    segments (ofSegments names) = names :=
  splitOn_joinWith (.of '/') hne (fun s hs => (h s hs).noSlash)

/-- A path of names is not empty. -/
lemma ofSegments_ne_nil {names : List Text} (hne : names ≠ []) (h : AreNames names) :
    ofSegments names ≠ [] := by
  intro hnil
  have hseg := segments_ofSegments hne h
  rw [hnil] at hseg
  have hmem : ([] : Text) ∈ names := by rw [← hseg]; simp [segments, splitOn]
  exact (h [] hmem).ne_nil rfl

/-- No segments make the empty path. -/
@[simp] lemma ofSegments_nil : ofSegments [] = [] := rfl

/-- A single segment is its own path. -/
@[simp] lemma ofSegments_singleton (s : Text) : ofSegments [s] = s := rfl

/-- The path of two lists of names. -/
lemma ofSegments_append {l m : List Text} (hl : l ≠ []) (hm : m ≠ []) :
    ofSegments (l ++ m) = ofSegments l ++ .of '/' :: ofSegments m := by
  rw [ofSegments, joinWith_append [.of '/'] hl hm]
  simp [ofSegments]

/-- The path of a list with one more segment in front. -/
lemma ofSegments_cons (s : Text) {l : List Text} (hl : l ≠ []) :
    ofSegments (s :: l) = s ++ .of '/' :: ofSegments l :=
  ofSegments_append (List.cons_ne_nil s []) hl

/-- Different lists of names have different paths. -/
lemma ofSegments_injective {l m : List Text} (hl : AreNames l) (hm : AreNames m)
    (h : ofSegments l = ofSegments m) : l = m := by
  by_cases hl0 : l = []
  · by_cases hm0 : m = []
    · rw [hl0, hm0]
    · exact absurd (by rw [← h, hl0]; rfl) (ofSegments_ne_nil hm0 hm)
  · by_cases hm0 : m = []
    · exact absurd (by rw [h, hm0]; rfl) (ofSegments_ne_nil hl0 hl)
    · rw [← segments_ofSegments hl0 hl, h, segments_ofSegments hm0 hm]

/-- The path of names is plain. -/
lemma isPlain_ofSegments {names : List Text} (hne : names ≠ []) (h : AreNames names) :
    IsPlain (ofSegments names) := by
  rw [IsPlain, segments_ofSegments hne h]
  exact h

/-- A path has at least one segment. -/
lemma segments_ne_nil (path : Text) : segments path ≠ [] := splitOn_ne_nil (.of '/') path

/-- A plain path is not empty. -/
lemma IsPlain.ne_nil {path : Text} (h : IsPlain path) : path ≠ [] := by
  rw [← ofSegments_segments path]
  exact ofSegments_ne_nil (segments_ne_nil path) h

/-- The segments of a path that is continued below a slash. -/
lemma segments_append_slash (s t : Text) :
    segments (s ++ .of '/' :: t) = segments s ++ segments t :=
  splitOn_append_sep s t

/-- The names on both sides of a slash. -/
lemma names_append_slash (s t : Text) : names (s ++ .of '/' :: t) = names s ++ names t := by
  rw [names, segments_append_slash, List.filter_append]
  rfl

/-- Where no segment is empty, all of them are names. -/
lemma names_eq_segments {path : Text} (h : ∀ s ∈ segments path, s ≠ []) :
    names path = segments path :=
  List.filter_eq_self.2 fun s hs => by simpa using h s hs

/-- The names of a path of names. -/
lemma names_ofSegments {l : List Text} (hne : l ≠ []) (hl : AreNames l) :
    names (ofSegments l) = l := by
  rw [names, segments_ofSegments hne hl, List.filter_eq_self]
  exact fun s hs => by simpa using (hl s hs).ne_nil

/-- A path of names does not end with a slash. -/
lemma getLast?_ofSegments_ne {names : List Text} (hne : names ≠ []) (hn : AreNames names) :
    (ofSegments names).getLast? ≠ some (.of '/') := by
  obtain ⟨front, last, rfl⟩ := List.eq_nil_or_concat' names |>.resolve_left hne
  have hlast : IsName last := hn last (by simp)
  have hslash : last.getLast? ≠ some (.of '/') :=
    fun hmem => hlast.noSlash (List.mem_of_getLast? hmem)
  by_cases hf : front = []
  · subst hf
    simpa using hslash
  · rw [ofSegments_append hf (List.cons_ne_nil last []), ofSegments_singleton,
      List.getLast?_append_of_ne_nil _ (List.cons_ne_nil _ _)]
    cases hl : last with
    | nil => exact absurd hl hlast.ne_nil
    | cons c t => rwa [List.getLast?_cons_cons, ← hl]

/-- A path of names does not start with a slash. -/
lemma head?_ofSegments_ne {names : List Text} (hn : AreNames names) :
    (ofSegments names).head? ≠ some (.of '/') := by
  cases names with
  | nil => simp
  | cons s rest =>
    have hs : IsName s := hn s List.mem_cons_self
    obtain ⟨c, t, rfl⟩ := List.exists_cons_of_ne_nil hs.ne_nil
    have hc : c ≠ .of '/' := fun h => hs.noSlash (h ▸ List.mem_cons_self)
    by_cases hr : rest = []
    · subst hr
      simpa using hc
    · rw [ofSegments_cons _ hr]
      simpa using hc

/-- A path of names has no slashes around it. -/
lemma dropAround_ofSegments {names : List Text} (hn : AreNames names) :
    dropAround (· == .of '/') (ofSegments names) = ofSegments names := by
  by_cases hne : names = []
  · subst hne
    rfl
  · have hfront : (ofSegments names).dropWhile (· == .of '/') = ofSegments names := by
      have hhead := head?_ofSegments_ne hn
      cases ht : ofSegments names with
      | nil => rfl
      | cons c t =>
        rw [ht] at hhead
        have hc : c ≠ .of '/' := by simpa using hhead
        simp [hc]
    rw [dropAround, hfront]
    refine dropEndWhile_eq_self fun c hc => ?_
    have hne' : c ≠ .of '/' := fun h => getLast?_ofSegments_ne hne hn (by rw [← h]; exact hc)
    simpa using hne'

/-! ### Continuing a path -/

/-- Continuing a path of names by a name. -/
lemma join_ofSegments {names : List Text} (h : AreNames names) (s : Text) :
    join (ofSegments names) s = ofSegments (names ++ [s]) := by
  by_cases hne : names = []
  · subst hne
    rfl
  · have hnil : (ofSegments names).isEmpty = false := by
      simpa using ofSegments_ne_nil hne h
    rw [join, hnil, ofSegments_append hne (List.cons_ne_nil s [])]
    rfl

/-- Continuing a path of names by more of them. -/
lemma join_ofSegments_append {l m : List Text} (hl : AreNames l) (hm : m ≠ []) :
    join (ofSegments l) (ofSegments m) = ofSegments (l ++ m) := by
  by_cases hne : l = []
  · subst hne
    rfl
  · have hnil : (ofSegments l).isEmpty = false := by simpa using ofSegments_ne_nil hne hl
    rw [join, hnil, ofSegments_append hne hm]
    rfl

/-- What continues a path to a plain one is plain. -/
lemma isPlain_of_join {names : List Text} (hn : AreNames names) {rel : Text}
    (h : IsPlain (join (ofSegments names) rel)) : IsPlain rel := by
  by_cases hne : names = []
  · subst hne
    exact h
  · have hnil : (ofSegments names).isEmpty = false := by simpa using ofSegments_ne_nil hne hn
    rw [IsPlain, join, hnil, if_neg Bool.false_ne_true, segments_append_slash] at h
    exact h.right

/-! ### The parts of a path -/

/-- The parts of a path at its last slash. -/
lemma splitLast?_ofSegments_concat {names : List Text} (hne : names ≠ []) {s : Text}
    (hs : .of '/' ∉ s) :
    splitLast? (.of '/') (ofSegments (names ++ [s])) = some (ofSegments names, s) := by
  rw [ofSegments_append hne (List.cons_ne_nil s [])]
  exact splitLast?_eq_some.2 ⟨rfl, hs⟩

/-- The parent of a path is the path of all its segments but the last. -/
lemma parent_ofSegments_concat (names : List Text) {s : Text} (hs : .of '/' ∉ s) :
    parent (ofSegments (names ++ [s])) = ofSegments names := by
  by_cases hne : names = []
  · subst hne
    simp [parent, splitLast?_eq_none.2 hs]
  · rw [parent, splitLast?_ofSegments_concat hne hs]

/-- The base name of a path is its last segment. -/
lemma baseName_ofSegments_concat (names : List Text) {s : Text} (hs : .of '/' ∉ s) :
    baseName (ofSegments (names ++ [s])) = s := by
  by_cases hne : names = []
  · subst hne
    simp [baseName, splitLast?_eq_none.2 hs]
  · rw [baseName, splitLast?_ofSegments_concat hne hs]

/-- The extension of a path is that of its last name. -/
lemma extension_ofSegments_concat (names : List Text) {s : Text} (hs : .of '/' ∉ s) :
    extension (ofSegments (names ++ [s])) = extension s := by
  rw [extension, baseName_ofSegments_concat names hs, extension]
  rw [show baseName s = s from baseName_ofSegments_concat [] hs]

/-! ### Absolute paths -/

/-- The absolute path of names below a project. -/
def inside (root : Text) (names : List Text) : Text := Location.joinText root names

/-- The absolute path of a path of names. -/
lemma absolute_ofSegments {names : List Text} (h : AreNames names) (root : Text) :
    absolute root (ofSegments names) = inside root names := by
  by_cases hne : names = []
  · subst hne
    rfl
  · have hnil : (ofSegments names).isEmpty = false := by
      simpa using ofSegments_ne_nil hne h
    rw [absolute, hnil, segments_ofSegments hne h]
    rfl

/-- The absolute path of a plain path. -/
lemma absolute_of_isPlain {path : Text} (h : IsPlain path) (root : Text) :
    absolute root path = inside root (segments path) := by
  conv_lhs => rw [← ofSegments_segments path]
  exact absolute_ofSegments h root

/-- No names lead to the root itself. -/
@[simp] lemma inside_nil (root : Text) : inside root [] = root := rfl

/-- The absolute path of one more name. -/
lemma inside_concat (root : Text) (names : List Text) (s : Text) :
    inside root (names ++ [s]) = Location.joinSegment (inside root names) s := by
  simp [inside, Location.joinText]

end GlobPreset.Path
