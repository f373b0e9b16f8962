import GlobPreset.Proofs.Expansion.Outcome
import GlobPreset.Proofs.FileSystem.Listed
import GlobPreset.Proofs.Path.Safe
import GlobPreset.Proofs.Results

/-!
# Expansion stays inside the project

A stored list is data from elsewhere, and what it may make the library look at is bounded by one
check of its patterns. The check is made before a file system is asked for anything, on every text
that a pattern is read as. Behind it, a walk starts at the project or at a relative path, and goes
on by names alone, so that it cannot come upon a path that leads back up.

## Main definitions

* `Path.LeadsOut` — a path that could lead out of the project on some platform.
* `Path.StaysInside` — a path that does not start at the root and has no parent segment.

## Main results

* `Expand.exists_walk_of_outcome` — a file that is given is found by the walk of a group.
* `Expand.expandText_confined` — expansion of a stored text, of whatever it consists.

## Design

That nothing is asked of a file system is said by quantifying over it: the answer to a refused text
is the same one for every file system, and for every context.
-/

set_option autoImplicit false

namespace GlobPreset

open GlobPreset.Path

/-! ### Paths -/

namespace Path

/-- A path that could lead out of the project: it has a NUL, starts at a root of some platform, or
has a parent segment when backslashes are read as separators too. -/
def LeadsOut (path : Text) : Prop :=
  .of '\x00' ∈ path ∨ isAbsolute path = true ∨ [.of '.', .of '.'] ∈ segments (toSlashes path)

/-- The path does not start at the root, and none of its segments is a parent segment. -/
structure StaysInside (path : Text) : Prop where
  /-- It does not start with a slash. -/
  relative : path.head? ≠ some (.of '/')
  /-- It has no parent segment. -/
  noParent : [.of '.', .of '.'] ∉ segments path

/-- **What is refused are the paths that lead out.** -/
lemma unsafeCause?_isSome {path : Text} : (unsafeCause? path).isSome = true ↔ LeadsOut path := by
  have hparent : hasParentSegment (toSlashes path) = true ↔
      [.of '.', .of '.'] ∈ segments (toSlashes path) := by
    simp [hasParentSegment]
  rw [← not_iff_not, Bool.not_eq_true, Option.isSome_eq_false_iff, Option.isNone_iff_eq_none,
    unsafeCause?_eq_none]
  simp only [LeadsOut, ← hparent, not_or, Bool.not_eq_true]

/-- **A path that does not lead out is safe.** -/
lemma unsafeCause?_of_not_leadsOut {path : Text} (h : ¬ LeadsOut path) :
    unsafeCause? path = none := by
  rwa [← unsafeCause?_isSome, Bool.not_eq_true, Option.isSome_eq_false_iff,
    Option.isNone_iff_eq_none] at h

/-- A path that does not lead out stays inside. -/
lemma staysInside_of_not_leadsOut {path : Text} (h : ¬ LeadsOut path) : StaysInside path where
  relative := by
    intro hhead
    exact h (.inr (.inl (by simp [isAbsolute, hhead])))
  noParent := by
    intro hdots
    have hsafe : unsafeCause? (ofSegments (segments path)) = none := by
      rw [ofSegments_segments]
      exact unsafeCause?_of_not_leadsOut h
    exact ne_dots_of_safe hsafe _ hdots rfl

/-- A path that stays inside does so when it is continued by names. -/
lemma StaysInside.foldl_join {path : Text} (h : StaysInside path) {names : List Text}
    (hn : AreNames names) : StaysInside (names.foldl join path) := by
  -- the empty path takes the first name as it is, and then is no longer empty
  have hfull : ∀ {path : Text}, path ≠ [] → StaysInside path → ∀ {names : List Text},
      AreNames names → StaysInside (names.foldl join path) := by
    intro path hpath h names hn
    refine ⟨by rw [head?_foldl_join hpath]; exact h.relative, fun hdots => ?_⟩
    rw [segments_foldl_join (fun s hs => (hn s hs).noSlash) hpath, List.mem_append] at hdots
    rcases hdots with hdots | hdots
    · exact h.noParent hdots
    · exact (hn _ hdots).ne_dots rfl
  by_cases hpath : path = []
  · subst hpath
    cases names with
    | nil => exact h
    | cons s rest =>
      have hs : IsName s := hn s List.mem_cons_self
      have hself : segments s = [s] := Text.splitOn_of_not_mem hs.noSlash
      refine hfull hs.ne_nil ⟨fun hhead => ?_, fun hdots => ?_⟩
        (fun t ht => hn t (List.mem_cons_of_mem s ht))
      · exact hs.noSlash (List.mem_of_mem_head? hhead)
      · rw [hself, List.mem_singleton] at hdots
        exact hs.ne_dots hdots.symm
  · exact hfull hpath h hn

end Path

/-! ### The check -/

/-- **A list with a reading that leads out is refused** for a reading that leads out. -/
lemma PatternList.checkSafe_of_leadsOut {list : PatternList}
    (h : ∃ p ∈ list.includes ++ list.excludes, ∃ r ∈ Pattern.readings p, LeadsOut r) :
    ∃ e : UnsafePath, LeadsOut e.path ∧ list.checkSafe = .error e := by
  cases hfirst : Pattern.firstUnsafe? (list.includes ++ list.excludes) with
  | none =>
    have hsafe : list.checkSafe = .ok () := by
      rw [PatternList.checkSafe, Pattern.checkAllSafe, hfirst]
    obtain ⟨p, hp, r, hr, hout⟩ := h
    rw [← unsafeCause?_isSome, PatternList.checkSafe_eq_ok.1 hsafe p hp r hr] at hout
    cases hout
  | some e =>
    obtain ⟨r, -, hrefusal⟩ := List.exists_of_findSome?_eq_some hfirst
    obtain ⟨cause, hcause, rfl⟩ := Option.map_eq_some_iff.1 hrefusal
    have hout : LeadsOut r := unsafeCause?_isSome.1 (by rw [hcause]; rfl)
    exact ⟨_, hout, by rw [PatternList.checkSafe, Pattern.checkAllSafe, hfirst]⟩

namespace Expand

variable {fs : FileSystem} {root : Text} {context : Context}

/-! ### Walks -/

/-- The base of a group is a reading of one of the patterns. -/
lemma exists_reading_of_group {patterns : List Text} {g : Group} (hg : g ∈ groups patterns) :
    ∃ p ∈ patterns, g.1 ∈ Pattern.readings p := by
  obtain ⟨a, ha⟩ := List.exists_mem_of_ne_nil g.2 (mem_groupPairs.1 hg).2
  obtain ⟨⟨p, hp, hap⟩, hbase⟩ := mem_groups.1 ⟨g, hg, rfl, ha⟩
  exact ⟨p, hp, List.mem_cons_of_mem p (List.mem_flatMap.2 ⟨a, hap, by simp [hbase]⟩)⟩

/-- **The files of the groups** are those that a walk finds and the matcher of its group accepts. -/
lemma mem_of_mapM_groupFiles {ignore : IgnoreRules} {policy : CasePolicy} {f : Text}
    {gs : List Group} {found : List (List Text)}
    (h : gs.mapM (groupFiles fs root ignore policy) = .ok found) :
    f ∈ found.flatten ↔ ∃ g ∈ gs, ∃ matcher, Matcher.ofPatterns policy g.2 = .ok matcher ∧
      f ∈ Walk.files fs ignore root g.1 ∧ matcher.accepts f = true := by
  simp only [List.mem_flatten, mem_of_mapM_eq_ok h, groupFiles, bind_eq_ok, mapError_eq_ok,
    pure_eq_ok]
  constructor
  · rintro ⟨_, ⟨g, hg, matcher, hmatcher, rfl⟩, hf⟩
    exact ⟨g, hg, matcher, hmatcher, List.mem_filter.1 hf⟩
  · rintro ⟨g, hg, matcher, hmatcher, hf⟩
    exact ⟨_, ⟨g, hg, matcher, hmatcher, rfl⟩, List.mem_filter.2 hf⟩

/-- What is left are the files that no excluded pattern accepts, in order. -/
lemma withoutExcluded_run {policy : CasePolicy} {excludes files kept : List Text}
    (h : withoutExcluded policy excludes files = .ok kept) :
    excludes = [] ∧ kept = files ∨ ∃ matcher, Matcher.ofBracedList policy excludes = .ok matcher ∧
      kept = files.filter (fun f => !matcher.accepts f) := by
  unfold withoutExcluded at h
  split at h
  · rename_i hempty
    exact .inl ⟨List.isEmpty_iff.1 hempty, (Except.ok.inj h).symm⟩
  · simp only [bind_eq_ok, mapError_eq_ok, pure_eq_ok] at h
    obtain ⟨matcher, hmatcher, rfl⟩ := h
    exact .inr ⟨matcher, hmatcher, rfl⟩

/-- What is not excluded is some of the files, in their order. -/
lemma sublist_of_withoutExcluded {policy : CasePolicy} {excludes files kept : List Text}
    (h : withoutExcluded policy excludes files = .ok kept) : kept.Sublist files := by
  obtain ⟨-, rfl⟩ | ⟨matcher, -, rfl⟩ := withoutExcluded_run h
  · exact List.Sublist.refl _
  · exact List.filter_sublist

/-- **What is given step by step**: the files of the groups, without those that are excluded. -/
lemma exists_kept_of_outcome {list : PatternList} {files : List Text}
    (h : outcome fs root context list = .ok files) :
    list.includes = [] ∧ files = [] ∨ ∃ ignore found kept, context.ignoreRules = .ok ignore ∧
      (groups list.includes).mapM (groupFiles fs root ignore context.policy) = .ok found ∧
      withoutExcluded context.policy list.excludes (dedupe found.flatten) = .ok kept ∧
      files = Text.sort kept := by
  unfold outcome at h
  obtain ⟨_, -, h⟩ := bind_eq_ok.1 h
  split at h
  · rename_i hempty
    exact .inl ⟨List.isEmpty_iff.1 hempty, (pure_eq_ok.1 h).symm⟩
  · simp only [bind_eq_ok, mapError_eq_ok, pure_eq_ok] at h
    obtain ⟨ignore, hignore, found, hfound, kept, hkept, rfl⟩ := h
    exact .inr ⟨ignore, found, kept, hignore, hfound, hkept, rfl⟩

/-- **What is given is in order, each file once.** -/
theorem ordered_of_outcome {list : PatternList} {files : List Text}
    (h : outcome fs root context list = .ok files) :
    files.Pairwise (fun f g => Text.le f g = true) ∧ files.Nodup := by
  obtain ⟨-, rfl⟩ | ⟨ignore, found, kept, -, -, hkept, rfl⟩ := exists_kept_of_outcome h
  · exact ⟨List.Pairwise.nil, List.nodup_nil⟩
  · exact ⟨Text.sort_pairwise _,
      Text.nodup_sort.2 ((sublist_of_withoutExcluded hkept).nodup (nodup_dedupe _))⟩

/-- **A file that is given is found by the walk of a group.** -/
theorem exists_walk_of_outcome {list : PatternList} {files : List Text}
    (h : outcome fs root context list = .ok files) {f : Text} (hf : f ∈ files) :
    ∃ ignore, context.ignoreRules = .ok ignore ∧
      ∃ g ∈ groups list.includes, f ∈ Walk.files fs ignore root g.1 := by
  obtain ⟨-, rfl⟩ | ⟨ignore, found, kept, hignore, hfound, hkept, rfl⟩ := exists_kept_of_outcome h
  · cases hf
  · have hmem := mem_dedupe.1 ((sublist_of_withoutExcluded hkept).subset (Text.mem_sort.1 hf))
    obtain ⟨g, hg, matcher, -, hwalk, -⟩ := (mem_of_mapM_groupFiles hfound).1 hmem
    exact ⟨ignore, hignore, g, hg, hwalk⟩

/-! ### Confinement -/

/-- **Expansion stays inside the project.** A stored text with a reading that leads out is refused
by one answer that no file system has a part in. Of any other text, every walk starts at the project
or at a relative path without a parent segment, and every file that is given stays inside, as long
as the entries of directories have names. -/
theorem expandText_confined (text : Text) :
    ((∃ p ∈ (PatternList.parse text).includes ++ (PatternList.parse text).excludes,
        ∃ r ∈ Pattern.readings p, LeadsOut r) →
      ∃ e : UnsafePath, LeadsOut e.path ∧ ∀ (fs : FileSystem) (root : Text) (context : Context),
        expandText fs root context text = ⟨.error (.unsafePath e), []⟩) ∧
    ((∀ p ∈ (PatternList.parse text).includes ++ (PatternList.parse text).excludes,
        ∀ r ∈ Pattern.readings p, ¬ LeadsOut r) →
      ∀ (fs : FileSystem) (root : Text) (context : Context), fs.Lists IsName →
        (∀ g ∈ groups (PatternList.parse text).includes, ¬ LeadsOut g.1 ∧ StaysInside g.1) ∧
        ∀ files, (expandText fs root context text).outcome = .ok files →
          ∀ f ∈ files, StaysInside f) := by
  refine ⟨fun hout => ?_, fun hin fs root context hnames => ?_⟩
  · obtain ⟨e, he, hcheck⟩ := PatternList.checkSafe_of_leadsOut hout
    refine ⟨e, he, fun fs root context => ?_⟩
    simp [expandText, PatternList.expand, outcome, warnings, hcheck, Except.mapError, bind,
      Except.bind]
  · have hbase : ∀ g ∈ groups (PatternList.parse text).includes,
        ¬ LeadsOut g.1 ∧ StaysInside g.1 := by
      intro g hg
      obtain ⟨p, hp, hr⟩ := exists_reading_of_group hg
      have hsafe := hin p (List.mem_append_left _ hp) g.1 hr
      exact ⟨hsafe, staysInside_of_not_leadsOut hsafe⟩
    refine ⟨hbase, fun files houtcome f hf => ?_⟩
    obtain ⟨ignore, -, g, hg, hwalk⟩ := exists_walk_of_outcome houtcome hf
    obtain ⟨names, hn, rfl, -⟩ := Walk.exists_names_of_mem_files hnames hwalk
    exact (hbase g hg).2.foldl_join hn

/-- A tree with one file. -/
def oneFile : MemoryTree := .build "/p".toText [.file "s/a".toText []]

/-- An escaped parent segment is refused, and a list that stays inside gives what it selects. -/
theorem expandText_confined_oneFile :
    (∃ e : UnsafePath, LeadsOut e.path ∧ ∀ (fs : FileSystem) (root : Text) (context : Context),
      expandText fs root context "\x7ba,\\..\x7d/x".toText = ⟨.error (.unsafePath e), []⟩) ∧
    (expandText oneFile.fileSystem "/p".toText Context.standard "s/*".toText).outcome =
      .ok ["s/a".toText] ∧ StaysInside "s/a".toText := by
  refine ⟨(expandText_confined _).1 ⟨"\x7ba,\\..\x7d/x".toText, by decide, "../x".toText, by decide,
    .inr (.inr (by decide))⟩, ?_⟩
  have hgiven : (expandText oneFile.fileSystem "/p".toText Context.standard "s/*".toText).outcome =
      .ok ["s/a".toText] := by
    decide
  have hsafe : ∀ p ∈ (PatternList.parse "s/*".toText).includes ++
      (PatternList.parse "s/*".toText).excludes, ∀ r ∈ Pattern.readings p, ¬ LeadsOut r := by
    simp only [LeadsOut]
    decide
  have hnames : oneFile.fileSystem.Lists IsName :=
    MemoryTree.lists_isName (MemoryTree.wellFormed_build rfl _ (by decide))
  exact ⟨hgiven, ((expandText_confined _).2 hsafe _ _ _ hnames).2 _ hgiven _
    (List.mem_singleton_self _)⟩

end Expand

end GlobPreset
