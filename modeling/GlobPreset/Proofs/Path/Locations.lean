import Mathlib.Tactic.Tauto
import GlobPreset.Path.Location
import GlobPreset.Proofs.Path.Names

/-!
# Normal forms of absolute paths

The segments of an absolute path in normal form are names, and such a location and its text
determine each other. So an absolute path is read back as it was written, name by name.

## Main definitions

* `Location.IsProper` — an absolute location whose segments are names.

## Main results

* `Location.ofText_isProper` — reading an absolute path gives a proper location.
* `Location.IsProper.ofText_toText` — a proper location is read back from its text.
* `Location.IsProper.inside` — the path of names below a proper location.
-/

set_option autoImplicit false

namespace GlobPreset.Location

open GlobPreset.Path

/-! ### Proper locations -/

/-- An absolute location whose segments are names. -/
structure IsProper (l : Location) : Prop where
  /-- It starts at the root. -/
  absolute : l.anchor ≠ .relative
  /-- Its segments are names. -/
  names : AreNames l.segments

/-- Names below the root are a location in normal form. -/
lemma isProper_below {names : List Text} (hn : AreNames names) : (below names).IsProper :=
  ⟨by simp [below], hn⟩

/-- What contains a location in normal form is in normal form. -/
lemma IsProper.parent {l : Location} (h : l.IsProper) : l.parent.IsProper :=
  ⟨h.absolute, fun s hs => h.names s (List.dropLast_subset _ hs)⟩

/-- A proper location continued by names. -/
lemma IsProper.further {l : Location} (h : l.IsProper) {names : List Text}
    (hn : AreNames names) : (⟨l.anchor, l.segments ++ names⟩ : Location).IsProper :=
  ⟨h.absolute, h.names.append hn⟩

/-- Going one segment further from names leads to names. -/
lemma walkSegment_areNames {anchor : Anchor} (ha : anchor ≠ .relative) {done : List Text}
    (hd : AreNames done) {segment : Text} (hs : .of '/' ∉ segment) :
    AreNames (walkSegment anchor done segment) := by
  unfold walkSegment
  split
  · exact hd
  · rename_i hplain
    split
    · cases done with
      | nil => simp
      | cons last rest =>
        have hlast : last ≠ [.of '.', .of '.'] := (hd last List.mem_cons_self).ne_dots
        simp only [hlast, if_false]
        exact fun x hx => hd x (List.mem_cons_of_mem _ hx)
    · rename_i hdots
      intro x hx
      rcases List.mem_cons.1 hx with rfl | hx
      · exact ⟨fun h => hplain (.inl h), hs, fun h => hplain (.inr h), hdots⟩
      · exact hd x hx

/-- Walking through segments without slashes leads from names to names. -/
lemma foldl_walkSegment_areNames {anchor : Anchor} (ha : anchor ≠ .relative)
    {parts : List Text} (hp : ∀ s ∈ parts, .of '/' ∉ s) {done : List Text} (hd : AreNames done) :
    AreNames (parts.foldl (walkSegment anchor) done) := by
  induction parts generalizing done with
  | nil => exact hd
  | cons s rest ih =>
    exact ih (fun x hx => hp x (List.mem_cons_of_mem _ hx))
      (walkSegment_areNames ha hd (hp s List.mem_cons_self))

/-- An absolute path starts at a root. -/
lemma anchorOf_ne_relative {path : Text} (h : path.head? = some (.of '/')) :
    anchorOf path ≠ .relative := by
  unfold anchorOf
  split
  · simp
  · simp
  · simp
  · rename_i hno
    cases path with
    | nil => cases h
    | cons c t =>
      obtain rfl : c = .of '/' := by simpa using h
      exact absurd rfl (hno t)

/-- An absolute path is read as an anchor and the normal form of its segments. -/
lemma ofText_of_anchor {path : Text} (h : anchorOf path ≠ .relative) :
    ofText path = ⟨anchorOf path, normalSegments (anchorOf path) (Path.segments path)⟩ := by
  unfold ofText
  dsimp only
  split
  · rename_i ha _
    exact absurd ha h
  · rfl

/-- **Reading an absolute path** gives a proper location. -/
lemma ofText_isProper {path : Text} (h : path.head? = some (.of '/')) : (ofText path).IsProper := by
  have ha := anchorOf_ne_relative h
  rw [ofText_of_anchor ha]
  refine ⟨ha, fun s hs => ?_⟩
  exact foldl_walkSegment_areNames ha (fun s hs => Text.not_mem_of_mem_splitOn hs)
    areNames_nil s (List.mem_reverse.1 hs)

/-! ### Texts of proper locations -/

/-- Names are their own normal form. -/
lemma normalSegments_of_areNames (anchor : Anchor) {parts : List Text} (h : AreNames parts) :
    normalSegments anchor parts = parts := by
  suffices hfold : ∀ done, parts.foldl (walkSegment anchor) done = parts.reverse ++ done by
    rw [normalSegments, hfold, List.append_nil, List.reverse_reverse]
  induction parts with
  | nil => exact fun done => rfl
  | cons s rest ih =>
    intro done
    have hs : IsName s := h s List.mem_cons_self
    have hstep : walkSegment anchor done s = s :: done := by
      simp [walkSegment, hs.ne_nil, hs.ne_dot, hs.ne_dots]
    rw [List.foldl_cons, hstep, ih (fun x hx => h x (List.mem_cons_of_mem _ hx))]
    simp

/-- Empty segments do not count. -/
lemma normalSegments_nil_cons (anchor : Anchor) (parts : List Text) :
    normalSegments anchor ([] :: parts) = normalSegments anchor parts := by
  simp [normalSegments, walkSegment]

/-- The anchor of the text of a proper location. -/
lemma IsProper.anchorOf_toText {l : Location} (h : l.IsProper) : anchorOf l.toText = l.anchor := by
  obtain ⟨anchor, segments⟩ := l
  have hhead := head?_ofSegments_ne h.names
  unfold toText
  cases anchor with
  | relative => exact absurd rfl h.absolute
  | root =>
    cases ht : ofSegments segments with
    | nil => simp [anchorText, anchorOf]
    | cons c t =>
      have hc : c ≠ .of '/' := by simpa [ht] using hhead
      simp [anchorText, anchorOf, hc]
  | doubleRoot =>
    cases ht : ofSegments segments with
    | nil => simp [anchorText, anchorOf]
    | cons c t =>
      have hc : c ≠ .of '/' := by simpa [ht] using hhead
      simp [anchorText, anchorOf, hc]

/-- **A proper location is read back from its text.** -/
lemma IsProper.ofText_toText {l : Location} (h : l.IsProper) : ofText l.toText = l := by
  have hanchor := h.anchorOf_toText
  rw [ofText_of_anchor (by rw [hanchor]; exact h.absolute), hanchor]
  have hsegs : normalSegments l.anchor (Path.segments (ofSegments l.segments)) = l.segments := by
    by_cases hne : l.segments = []
    · rw [hne]
      rfl
    · rw [segments_ofSegments hne h.names, normalSegments_of_areNames l.anchor h.names]
  obtain ⟨anchor, segments⟩ := l
  cases anchor with
  | relative => exact absurd rfl h.absolute
  | root =>
    have hcut : Path.segments (toText ⟨.root, segments⟩) =
        [] :: Path.segments (ofSegments segments) := Text.splitOn_cons_sep _
    rw [hcut, normalSegments_nil_cons, hsegs]
  | doubleRoot =>
    have hcut : Path.segments (toText ⟨.doubleRoot, segments⟩) =
        [] :: [] :: Path.segments (ofSegments segments) := by
      change Text.splitOn (.of '/') (.of '/' :: .of '/' :: _) = _
      rw [Text.splitOn_cons_sep, Text.splitOn_cons_sep]
      rfl
    rw [hcut, normalSegments_nil_cons, normalSegments_nil_cons, hsegs]

/-- The names of the text of a proper location are its own. -/
lemma IsProper.names_toText {l : Location} (h : l.IsProper) : Path.names l.toText = l.segments := by
  have hroot : Path.names (.of '/' :: ofSegments l.segments) = l.segments := by
    by_cases hne : l.segments = []
    · rw [hne]
      rfl
    · exact (names_append_slash [] _).trans (names_ofSegments hne h.names)
  obtain ⟨anchor, segments⟩ := l
  cases anchor with
  | relative => exact absurd rfl h.absolute
  | root => exact hroot
  | doubleRoot => exact (names_append_slash [] _).trans hroot

/-- The text of a proper location starts with a slash. -/
lemma IsProper.head?_toText {l : Location} (h : l.IsProper) : l.toText.head? = some (.of '/') := by
  unfold toText
  cases ha : l.anchor with
  | relative => exact absurd ha h.absolute
  | root => rfl
  | doubleRoot => rfl

/-- The path of a location in normal form is not empty. -/
lemma IsProper.toText_ne_nil {l : Location} (h : l.IsProper) : l.toText ≠ [] := by
  intro hnil
  have hhead := h.head?_toText
  rw [hnil] at hhead
  cases hhead

/-- Continuing the text of a proper location: a slash is put between unless it is there. -/
lemma IsProper.joinSegment_eq {l : Location} (h : l.IsProper) {segment : Text}
    (hhead : segment.head? ≠ some (.of '/')) :
    joinSegment l.toText segment =
      if l.segments = [] then l.toText ++ segment else l.toText ++ .of '/' :: segment := by
  rw [joinSegment, if_neg hhead]
  obtain ⟨anchor, segments⟩ := l
  by_cases hne : segments = []
  · subst hne
    cases anchor with
    | relative => exact absurd rfl h.absolute
    | root => rfl
    | doubleRoot => rfl
  · have hlast := getLast?_ofSegments_ne hne h.names
    obtain ⟨c, t, hct⟩ := List.exists_cons_of_ne_nil (ofSegments_ne_nil hne h.names)
    have hend : (toText ⟨anchor, segments⟩).getLast? ≠ some (.of '/') := by
      rw [toText, List.getLast?_append_of_ne_nil _ (by simp [hct])]
      exact hlast
    have hfull : (toText ⟨anchor, segments⟩).isEmpty = false := by
      simp [toText, hct]
    have hplain : ¬ ((toText ⟨anchor, segments⟩).isEmpty ||
        decide ((toText ⟨anchor, segments⟩).getLast? = some (.of '/'))) = true := by
      simp [hfull, hend]
    rw [if_neg hplain, if_neg hne]

/-- Continuing the text of a proper location by a name. -/
lemma IsProper.joinSegment_toText {l : Location} (h : l.IsProper) {name : Text}
    (hname : IsName name) :
    joinSegment l.toText name = (⟨l.anchor, l.segments ++ [name]⟩ : Location).toText := by
  have hhead : name.head? ≠ some (.of '/') := fun hh => hname.noSlash (List.mem_of_head? hh)
  rw [h.joinSegment_eq hhead]
  obtain ⟨anchor, segments⟩ := l
  by_cases hne : segments = []
  · subst hne
    simp [toText]
  · rw [if_neg hne, toText, toText, ofSegments_append hne (List.cons_ne_nil name [])]
    simp

/-- **The path of names below a proper location.** -/
lemma IsProper.inside {l : Location} (h : l.IsProper) {names : List Text} (hn : AreNames names) :
    Path.inside l.toText names = (⟨l.anchor, l.segments ++ names⟩ : Location).toText := by
  induction names using List.reverseRecOn with
  | nil => simp
  | append_singleton names name ih =>
    rw [inside_concat, ih hn.left, (h.further hn.left).joinSegment_toText
      (hn.right name (List.mem_singleton_self name))]
    simp

end GlobPreset.Location
