import Mathlib.Data.List.Perm.Subperm
import GlobPreset.Proofs.FileSystem.Memory
import GlobPreset.Proofs.FileSystem.Reach

/-!
# Trees without linked directories

Where no link leads to a directory and every directory can be listed, every directory is in place,
so a walk is clear from anywhere: it finds the files below its base that no ignored name hides.

## Main definitions

* `MemoryTree.IsUnlinked` — no link leads to a directory, and no directory refuses to be listed.
* `FileSystem.HasFile` — the path of a file of the project.

## Main results

* `MemoryTree.IsUnlinked.pass_eq_arrived` — no link stands on the way to a directory.
* `MemoryTree.IsUnlinked.clear` — every directory is clear.
* `MemoryTree.IsUnlinked.reaches_iff` — what a walk reaches below a directory.

## Design

The directories on the way to a directory are registered, and different. So no directory is deeper
than there are directories, and the fuel of a walk is enough.
-/

set_option autoImplicit false

namespace GlobPreset

open GlobPreset.Path

/-- The path of a file of the project. -/
def FileSystem.HasFile (fs : FileSystem) (root path : Text) : Prop :=
  IsPlain path ∧ fs.isFile (absolute root path) = true

/-- A path of names is a file of the project if a file is found inside the root by them. -/
lemma FileSystem.hasFile_ofSegments {fs : FileSystem} {root : Text} {names : List Text}
    (hne : names ≠ []) (hn : AreNames names) :
    fs.HasFile root (ofSegments names) ↔ fs.kind? (inside root names) = some .file := by
  rw [HasFile, absolute_ofSegments hn, isFile, beq_iff_eq]
  exact and_iff_right (isPlain_ofSegments hne hn)

namespace MemoryTree

open Location

/-- No link leads to a directory, and no directory refuses to be listed. -/
structure IsUnlinked (t : MemoryTree) : Prop where
  /-- No link leads to a directory. -/
  link : ∀ l ∈ t.links.map Prod.fst, t.kind? l.toText ≠ some .directory
  /-- Every directory can be listed. -/
  readable : t.unreadable = []

variable {t : MemoryTree} {ignore : IgnoreRules}

/-- The root is in normal form. -/
lemma isProper_top : Location.top.IsProper := ⟨by simp [Location.top], areNames_nil⟩

/-- **No link stands on the way to a directory.** -/
lemma IsUnlinked.pass_eq_arrived (hu : t.IsUnlinked) (h : t.WellFormed) {names : List Text}
    (hn : AreNames names) (hdir : t.kind? (Location.below names).toText = some .directory) :
    t.pass [] names = .arrived names := by
  cases hp : t.pass [] names with
  | arrived reached => rw [MemoryTree.pass_eq_arrived hn hp, List.nil_append]
  | atLink link directory target pending =>
    exfalso
    obtain ⟨hl, _, name, rfl, rfl, rfl⟩ := pass_eq_atLink hn hp
    have hmem : Location.below (directory ++ [name]) ∈ t.links.map Prod.fst :=
      (lookup?_isSome _ _).1 (by rw [hl]; rfl)
    refine hu.link _ hmem ?_
    have happ : directory ++ name :: pending = (directory ++ [name]) ++ pending := by simp
    rw [happ] at hn hdir
    by_cases hpend : pending = []
    · rwa [hpend, List.append_nil] at hdir
    · -- what contains a directory is one, seen from the root of all paths
      have hproj := isProject h isProper_top
      have habove := hproj.directory_above hpend hn (by
        rw [isProper_top.inside hn]
        exact (congrArg Option.isSome hdir).trans rfl)
      rw [isProper_top.inside hn.left] at habove
      exact habove

/-- Where a directory of an unlinked tree really is. -/
lemma IsUnlinked.realNames_eq (hu : t.IsUnlinked) (h : t.WellFormed) {names : List Text}
    (hn : AreNames names)
    (hdir : t.kind? (inside t.root.toText names) = some .directory) :
    t.realNames (inside t.root.toText names) = t.root.segments ++ names ∧
      t.arrive? maxLinks (t.root.segments ++ names) =
        some (t.root.segments ++ names, maxLinks) := by
  have hl := h.root.further hn
  rw [h.root.inside hn] at hdir ⊢
  have hbelow : t.kind? (Location.below (t.root.segments ++ names)).toText = some .directory := by
    rw [kind?_toText h (isProper_below hl.names), ← hdir, kind?_toText h hl]
    rfl
  have hpass := hu.pass_eq_arrived h hl.names hbelow
  have harr : t.arrive? maxLinks (t.root.segments ++ names) =
      some (t.root.segments ++ names, maxLinks) := arrive?_of_pass hpass
  exact ⟨realNames_of_arrive? hl harr, harr⟩

/-- A directory of an unlinked tree is registered where its names say. -/
lemma IsUnlinked.mem_directories (hu : t.IsUnlinked) (h : t.WellFormed) {names : List Text}
    (hn : AreNames names)
    (hdir : t.kind? (inside t.root.toText names) = some .directory) :
    Location.below (t.root.segments ++ names) ∈ t.directories := by
  have hreal := (hu.realNames_eq h hn hdir).1
  rw [kind?, realLocation, hreal] at hdir
  exact mem_directories_of_kindAt? hdir

/-- The real path of the project continued by names. -/
lemma trimmedRoot_continued {project : Text} (hreal : AreNames (t.realNames project))
    {names : List Text} (hne : names ≠ []) :
    t.fileSystem.trimmedRoot project ++ .of '/' :: ofSegments names =
      (Location.below (t.realNames project ++ names)).toText := by
  have htrim : t.fileSystem.trimmedRoot project =
      if t.realNames project = [] then [] else .of '/' :: ofSegments (t.realNames project) := by
    change Text.dropEndWhile _ (Location.below (t.realNames project)).toText = _
    by_cases hs : t.realNames project = []
    · rw [hs]
      rfl
    · rw [if_neg hs]
      refine Text.dropEndWhile_eq_self fun c hc => ?_
      have hlast := getLast?_ofSegments_ne hs hreal
      obtain ⟨d, rest, hcons⟩ := List.exists_cons_of_ne_nil (ofSegments_ne_nil hs hreal)
      change c ∈ (.of '/' :: ofSegments (t.realNames project)).getLast? at hc
      rw [List.getLast?_cons_of_ne_nil (by rw [hcons]; simp)] at hc
      have hne' : c ≠ .of '/' := by
        rintro rfl
        exact hlast hc
      simpa using hne'
  rw [htrim]
  by_cases hs : t.realNames project = []
  · rw [if_pos hs, hs]
    rfl
  · rw [if_neg hs, Location.toText, Location.below, ofSegments_append hs hne]
    rfl

/-- Where no link leads to the project, the real paths inside are those of the project continued. -/
lemma trimmedRoot_append (h : t.WellFormed)
    (hroot : t.realNames t.root.toText = t.root.segments) {names : List Text} (hne : names ≠ []) :
    t.fileSystem.trimmedRoot t.root.toText ++ .of '/' :: ofSegments names =
      (Location.below (t.root.segments ++ names)).toText := by
  rw [trimmedRoot_continued (hroot.symm ▸ h.root.names) hne, hroot]

/-- The real path of a directory of an unlinked tree. -/
lemma IsUnlinked.inPlace (hu : t.IsUnlinked) (h : t.WellFormed) {names : List Text}
    (hn : AreNames names)
    (hdir : t.kind? (inside t.root.toText names) = some .directory) :
    t.fileSystem.InPlace t.root.toText names := by
  by_cases hne : names = []
  · exact .inl hne
  right
  have hroot : t.kind? (inside t.root.toText []) = some .directory := by
    refine (isProject h h.root).directory_above hne ?_ ((congrArg Option.isSome hdir).trans rfl)
    rwa [List.nil_append]
  have hreal := (hu.realNames_eq h hn hdir).1
  have hrealRoot := (hu.realNames_eq h areNames_nil hroot).1
  rw [inside_nil, List.append_nil] at hrealRoot
  change (Location.below (t.realNames (inside t.root.toText names))).toText = _
  rw [hreal, trimmedRoot_append h hrealRoot hne]

/-- What an entry of a directory leads to, from the project. -/
lemma IsUnlinked.kind?_entry (hu : t.IsUnlinked) (h : t.WellFormed) {names : List Text}
    (hn : AreNames names)
    (hdir : t.kind? (inside t.root.toText names) = some .directory) {entries : List Entry}
    (hlist : t.fileSystem.list (inside t.root.toText names) = .ok entries) {e : Entry}
    (he : e ∈ entries) (hkind : e.kind ≠ .other) :
    t.kind? (inside t.root.toText (names ++ [e.name])) = some e.kind := by
  have hreal := (hu.realNames_eq h hn hdir).1
  have hl := h.root.further hn
  rw [h.root.inside hn] at hlist hreal
  obtain ⟨hfull, -, hlisted⟩ := listed_eq h hl hlist he
  rw [hreal] at hfull hlisted
  have hinner := hn.append hfull.right
  have hsame : t.kind? (inside t.root.toText (names ++ [e.name])) =
      t.kind? (Location.below (t.root.segments ++ names ++ [e.name])).toText := by
    rw [h.root.inside hinner, kind?_toText h (h.root.further hinner),
      kind?_toText h (isProper_below hfull)]
    simp [Location.below]
  rw [hsame]
  cases hk : t.kind? (Location.below (t.root.segments ++ names ++ [e.name])).toText with
  | none =>
    rw [hk] at hlisted
    exact absurd hlisted hkind
  | some k => rw [hlisted, hk, Option.getD_some]

/-- A directory is no deeper than there are directories. -/
lemma WellFormed.length_lt (h : t.WellFormed) {names : List Text}
    (hdir : Location.below names ∈ t.directories) : names.length < t.directories.length := by
  -- the directories on the way
  let way := (List.range (names.length + 1)).map fun i => Location.below (names.take i)
  have hway : way.Nodup := by
    refine List.Nodup.map_on (fun i hi j hj heq => ?_) List.nodup_range
    rw [List.mem_range] at hi hj
    have hlen := congrArg (fun l => l.segments.length) heq
    simp only [Location.below, List.length_take] at hlen
    omega
  have hsub : way ⊆ t.directories := by
    intro l hl
    obtain ⟨i, -, rfl⟩ := List.mem_map.1 hl
    by_cases hdrop : names.drop i = []
    · rwa [List.take_of_length_le (List.drop_eq_nil_iff.1 hdrop)]
    · refine h.directory_of_below hdrop ?_
      rw [List.take_append_drop]
      exact mem_locations.2 (.inr (.inl hdir))
  have hle := (hway.subperm hsub).length_le
  simp only [way, List.length_map, List.length_range] at hle
  omega

/-- A directory of an unlinked tree is no deeper than there are directories. -/
lemma IsUnlinked.length_lt (hu : t.IsUnlinked) (h : t.WellFormed) {names : List Text}
    (hn : AreNames names)
    (hdir : t.kind? (inside t.root.toText names) = some .directory) :
    names.length < t.directories.length := by
  have hlt := h.length_lt (hu.mem_directories h hn hdir)
  rw [List.length_append] at hlt
  omega

/-- **Every directory of an unlinked tree is clear.**

**Proof sketch.** Induction on the fuel. A directory is in place and listed, and an entry of it that
is a directory is one name deeper. At the depth at which the fuel is used up there is no directory
left. -/
theorem IsUnlinked.clear (hu : t.IsUnlinked) (h : t.WellFormed) :
    ∀ {fuel : Nat} {names : List Text}, AreNames names →
      t.kind? (inside t.root.toText names) = some .directory →
      t.directories.length ≤ fuel + names.length →
      t.fileSystem.Clear .sensitive ignore t.root.toText fuel names := by
  intro fuel
  induction fuel with
  | zero =>
    intro names hn hdir hle
    have := hu.length_lt h hn hdir
    omega
  | succ fuel ih =>
    intro names hn hdir hle
    have hreal := (hu.realNames_eq h hn hdir).1
    have hlist : t.fileSystem.list (inside t.root.toText names) =
        .ok ((t.childNames (Location.below (t.root.segments ++ names))).map
          (t.entry ⟨t.root.anchor, t.root.segments ++ names⟩
            (Location.below (t.root.segments ++ names)))) := by
      change t.list _ = _
      have hl := h.root.further hn
      rw [h.root.inside hn] at hreal ⊢
      have hmem : t.directories.contains (Location.below (t.root.segments ++ names)) = true := by
        simpa using hu.mem_directories h hn hdir
      unfold list
      simp only [locate_toText hl, realLocation, hreal, hu.readable, hmem]
      rfl
    refine ⟨FileSystem.inPlaceBy_sensitive.2 (hu.inPlace h hn hdir), _, hlist,
      fun e he hkind _ => ?_⟩
    have hname := (isProject h h.root).isName hn hlist he
    have hk := hu.kind?_entry h hn hdir hlist he (by rw [hkind]; simp)
    rw [hkind] at hk
    refine ih (hn.append (areNames_singleton hname)) hk ?_
    simp only [List.length_append, List.length_cons, List.length_nil]
    omega

/-- **What a walk reaches below a directory**: the files there that no ignored name hides. -/
theorem IsUnlinked.reaches_iff (hu : t.IsUnlinked) (h : t.WellFormed) {names : List Text}
    (hn : AreNames names)
    (hdir : t.kind? (inside t.root.toText names) = some .directory) (rel : List Text) :
    t.fileSystem.Reaches ignore t.root.toText names rel ↔
      rel ≠ [] ∧ AreNames rel ∧ t.kind? (inside t.root.toText (names ++ rel)) = some .file ∧
        ignore.crossesNames rel = false := by
  have hproj := isProject h h.root
  constructor
  · intro hrel
    refine ⟨hrel.ne_nil, (hrel.areNames hproj hn).right, ?_, hrel.not_crosses⟩
    induction hrel with
    | file hlist he hkind _ =>
      rw [← hkind]
      exact hu.kind?_entry h hn hdir hlist he (by rw [hkind]; simp)
    | inner hlist he hkind _ _ ih =>
      have hname := hproj.isName hn hlist he
      have hk := hu.kind?_entry h hn hdir hlist he (by rw [hkind]; simp)
      rw [hkind] at hk
      simpa using ih (hn.append (areNames_singleton hname)) hk
  · rintro ⟨hne, hrel, hfile, hkept⟩
    have hclear : t.fileSystem.Clear .sensitive ignore t.root.toText t.directories.length names :=
      hu.clear h hn hdir (by omega)
    exact FileSystem.reaches_of_kind? hproj hne (hn.append hrel) hclear hfile hkept

/-- What has a file below it is a directory. -/
lemma directory_of_join (h : t.WellFormed) {base : List Text} (hb : AreNames base) {rel : Text}
    (hf : t.fileSystem.HasFile t.root.toText (join (ofSegments base) rel)) :
    t.kind? (inside t.root.toText base) = some .directory := by
  have hrel : IsPlain rel := isPlain_of_join hb hf.1
  rw [← ofSegments_segments rel, join_ofSegments_append hb (segments_ne_nil rel),
    FileSystem.hasFile_ofSegments (by simp [segments_ne_nil]) (hb.append hrel)] at hf
  exact (isProject h h.root).directory_above (segments_ne_nil rel) (hb.append hrel)
    (by rw [hf]; rfl)

/-- **The walk from a base of an unlinked tree** finds the base, if that is a file, and the files
below it that no ignored name hides. -/
theorem IsUnlinked.mem_walk (hu : t.IsUnlinked) (h : t.WellFormed) {base : List Text}
    (hb : AreNames base) (f : Text) :
    f ∈ Walk.files t.fileSystem ignore t.root.toText (ofSegments base) ↔
      t.fileSystem.HasFile t.root.toText f ∧
        (f = ofSegments base ∨
          ∃ rel, f = join (ofSegments base) rel ∧ ignore.crosses rel true = false) := by
  have hproj := isProject h h.root
  by_cases hdir : t.kind? (inside t.root.toText base) = some .directory
  · have hclear : t.fileSystem.Clear .sensitive ignore t.root.toText
        (t.fileSystem.depthBound + 1) base :=
      hu.clear h hb hdir (by simp only [fileSystem]; omega)
    rw [Walk.mem_files_of_clear hproj hb hdir hclear]
    constructor
    · rintro ⟨rel, hrel, rfl⟩
      obtain ⟨hne, hn, hfile, hkept⟩ := (hu.reaches_iff h hb hdir rel).1 hrel
      refine ⟨(FileSystem.hasFile_ofSegments (by simp [hne]) (hb.append hn)).2 hfile,
        .inr ⟨ofSegments rel, ?_, by rw [ignore.crosses_ofSegments hne hn, hkept]⟩⟩
      exact (join_ofSegments_append hb hne).symm
    · rintro ⟨hf, rfl | ⟨rel, rfl, hkept⟩⟩
      · -- a directory is no file
        have hne : base ≠ [] := by
          rintro rfl
          exact hf.1.ne_nil rfl
        have hfile := (FileSystem.hasFile_ofSegments hne hb).1 hf
        change t.kind? (inside t.root.toText base) = some .file at hfile
        rw [hdir] at hfile
        cases hfile
      · have hrel : IsPlain rel := isPlain_of_join hb hf.1
        refine ⟨segments rel, ?_, ?_⟩
        · rw [← ofSegments_segments rel, join_ofSegments_append hb (segments_ne_nil rel)] at hf
          rw [← ofSegments_segments rel,
            ignore.crosses_ofSegments (segments_ne_nil rel) hrel] at hkept
          exact (hu.reaches_iff h hb hdir _).2 ⟨segments_ne_nil rel, hrel,
            (FileSystem.hasFile_ofSegments (by simp [segments_ne_nil]) (hb.append hrel)).1 hf,
            hkept⟩
        · rw [← join_ofSegments_append hb (segments_ne_nil rel), ofSegments_segments]
  by_cases hfile : base ≠ [] ∧ t.kind? (inside t.root.toText base) = some .file
  · rw [Walk.files_of_isFile hfile.1 hb hfile.2, List.mem_singleton]
    constructor
    · rintro rfl
      exact ⟨(FileSystem.hasFile_ofSegments hfile.1 hb).2 hfile.2, .inl rfl⟩
    · rintro ⟨hf, rfl | ⟨rel, rfl, -⟩⟩
      · rfl
      · exact absurd (directory_of_join h hb hf) hdir
  · have hnone : base = [] ∨ t.kind? (inside t.root.toText base) ≠ some .file := by
      by_cases hne : base = []
      · exact .inl hne
      · exact .inr fun hk => hfile ⟨hne, hk⟩
    rw [Walk.files_of_not_directory hb hnone hdir]
    constructor
    · intro hmem
      cases hmem
    · rintro ⟨hf, rfl | ⟨rel, rfl, -⟩⟩
      · have hne : base ≠ [] := by
          rintro rfl
          exact hf.1.ne_nil rfl
        exact absurd ⟨hne, (FileSystem.hasFile_ofSegments hne hb).1 hf⟩ hfile
      · exact absurd (directory_of_join h hb hf) hdir

end MemoryTree

end GlobPreset
