import GlobPreset.Proofs.FileSystem.Clear
import GlobPreset.Proofs.FileSystem.Resolving
import GlobPreset.Proofs.Preset.Saved

/-!
# The shelf of a project

A project that has no folder of its own or above it gets one with its first preset. Before and after
that, the directory of its presets is looked for along different paths: from the project as it is
given, and in the folder that is found by then. Both lead to the same place, the shelf, and what
requests about a preset find is decided by the entry that stands there under its name.

## Main definitions

* `Preset.LeadsTo` — a path leads to some names behind a directory.
* `Preset.fileOf` — the place of the file of a preset.
* `Preset.IsShelf` — the presets of some names, and nothing else, are on the shelf of a project.

## Main results

* `Preset.IsShelf.exists_directory` — **the directory of presets leads to the shelf**, whether a
  folder is there or not.
* `Preset.IsShelf.exists_path` — where a preset is looked for.
* `Preset.IsShelf.find_of_mem`, `Preset.IsShelf.find_of_not_mem` — **what is found there**.
* `Preset.IsShelf.names_run` — what is listed are the names on the shelf.
-/

set_option autoImplicit false

namespace GlobPreset.Preset

open GlobPreset.Path Location Disk

variable {d : Disk}

/-! ### Paths behind a directory -/

/-- What is in a path, but for slashes, is in one of its segments. -/
lemma exists_segment_of_mem {path : Text} {c : CodePoint} (hc : c ∈ path) (hslash : c ≠ .of '/') :
    ∃ s ∈ Path.segments path, c ∈ s := by
  rw [← ofSegments_segments path] at hc
  rcases Text.mem_joinWith hc with hmem | hsome
  · exact absurd (List.mem_singleton.1 hmem) hslash
  · exact hsome

/-- A path is refused if one of its segments is. -/
lemma isRefused_eq_false {path : Text} :
    isRefused path = false ↔ ∀ s ∈ Path.segments path, isRefused s = false := by
  simp only [isRefused_eq_false_iff]
  constructor
  · exact fun h s hs c hc => h c (Text.mem_of_mem_splitOn hs hc)
  · intro h c hc
    by_cases hslash : c = .of '/'
    · subst hslash
      rfl
    · obtain ⟨s, hs, hmem⟩ := exists_segment_of_mem hc hslash
      exact h s hs c hmem

/-- A path leads to some names behind a directory, whether these are there or not. -/
structure LeadsTo (d : Disk) (path : Text) (home more : List Text) : Prop where
  /-- The path is one that requests take. -/
  notRefused : isRefused path = false
  /-- The names are at the end of it, and the way in front of them leads to the directory. -/
  way : ∃ front links, Path.segments path = front ++ more ∧ links ≤ maxLinks ∧
    Way d links [] front home

namespace LeadsTo

variable {path : Text} {home more : List Text}

/-- The segments that count lead there, too. -/
lemma plainNames_eq (h : LeadsTo d path home more) (hmore : AreNames more) :
    ∃ base links, plainNames path = base ++ more ∧ links ≤ maxLinks ∧ Way d links [] base home ∧
      ∀ s ∈ base, .of '/' ∉ s ∧ isRefused s = false := by
  obtain ⟨front, links, hsegs, hlinks, hway⟩ := h.way
  have hnames : plainNames path = front.filter counts ++ more := by
    rw [Path.plainNames_eq, hsegs, List.filter_append,
      List.filter_eq_self.2 fun s hs => (hmore.counts s hs).2]
  refine ⟨_, links, hnames, hlinks, (Way.filter_iff fun _ => counts_eq_false).2 hway, ?_⟩
  intro s hs
  have hsegment : s ∈ Path.segments path := by
    rw [hsegs]
    exact List.mem_append_left _ (List.mem_filter.1 hs).1
  exact ⟨Text.not_mem_of_mem_splitOn hsegment, isRefused_eq_false.1 h.notRefused s hsegment⟩

/-- Segments that lead there behind empty ones. -/
lemma of_segments {base empties : List Text} {links : Nat}
    (hsegs : Path.segments path = (empties ++ base) ++ more) (hempties : ∀ s ∈ empties, s = [])
    (hlinks : links ≤ maxLinks) (hway : Way d links [] base home)
    (hbase : ∀ s ∈ base, isRefused s = false) (hmore : ∀ s ∈ more, isRefused s = false) :
    LeadsTo d path home more where
  notRefused := by
    rw [isRefused_eq_false, hsegs, List.forall_mem_append, List.forall_mem_append]
    exact ⟨⟨fun s hs => hempties s hs ▸ rfl, hbase⟩, hmore⟩
  way := ⟨_, links, hsegs, hlinks, (Way.append_iff hempties).2 hway⟩

/-- The segments that count, put together, lead there. -/
lemma plainPath (h : LeadsTo d path home more) (hmore : AreNames more) (hne : more ≠ []) :
    LeadsTo d (plainPath path) home more := by
  obtain ⟨base, links, hnames, hlinks, hway, hbase⟩ := h.plainNames_eq hmore
  obtain ⟨front, -, hsegs, -, -⟩ := h.way
  have hsome : plainNames path ≠ [] := by simp [hnames, hne]
  obtain ⟨empties, hempties, hplain⟩ := segments_plainPath hsome
  rw [hnames, ← List.append_assoc] at hplain
  refine of_segments hplain hempties hlinks hway (fun s hs => (hbase s hs).2) fun s hs => ?_
  exact isRefused_eq_false.1 h.notRefused s (hsegs ▸ List.mem_append_right _ hs)

/-- One name further. -/
lemma within (h : LeadsTo d path home more) (hmore : AreNames more) (hne : more ≠ []) {last : Text}
    (hlast : IsName last) (hplain : isRefused last = false) :
    LeadsTo d (within path [last]) home (more ++ [last]) := by
  obtain ⟨base, links, hnames, hlinks, hway, hbase⟩ := h.plainNames_eq hmore
  obtain ⟨front, -, hsegs, -, -⟩ := h.way
  have hsome : plainNames path ≠ [] := by simp [hnames, hne]
  obtain ⟨empties, hempties, hfile, -⟩ := segments_file hlast hsome
  rw [hnames, ← List.append_assoc, List.append_assoc] at hfile
  refine of_segments hfile hempties hlinks hway (fun s hs => (hbase s hs).2) ?_
  rw [List.forall_mem_append, List.forall_mem_singleton]
  refine ⟨fun s hs => ?_, hplain⟩
  exact isRefused_eq_false.1 h.notRefused s (hsegs ▸ List.mem_append_right _ hs)

end LeadsTo

/-! ### The shelf -/

/-- The place of the file of a preset. -/
def fileOf (home : List Text) (name : Text) : List Text := shelfOf home ++ [name ++ suffix]

/-- Presets of different names have different places. -/
lemma fileOf_injective (home : List Text) {name other : Text}
    (h : fileOf home name = fileOf home other) : name = other :=
  List.append_cancel_right (List.cons.inj (List.append_cancel_left h)).1

/-- The names that lead from the home of presets to their shelf. -/
def shelfNames : List Text := [folderName, subfolderName]

/-- The names that lead to a shelf are names. -/
lemma areNames_shelfNames : AreNames shelfNames :=
  areNames_folderName.append areNames_subfolderName

/-- The shelf is where these names lead from the home. -/
lemma append_shelfNames (home : List Text) : home ++ shelfNames = shelfOf home := by
  rw [shelfNames, shelfOf, List.append_assoc, List.singleton_append]

/-- The path of a shelf leads to it behind its directory. -/
lemma LeadsTo.shelfOf (h : d.WellFormed) {home : List Text} (hat : d.at? home = some .directory)
    (hfits : ∀ s ∈ home, d.refusesName s = false) (hplain : ∀ s ∈ home, isRefused s = false) :
    LeadsTo d (below (shelfOf home)).toText home shelfNames := by
  have hn : AreNames home := h.areNames_of_at? hat
  have hsegs : Path.segments (below (Preset.shelfOf home)).toText =
      ([[]] ++ home) ++ shelfNames := by
    rw [segments_below (by simp [Preset.shelfOf]) fun s hs => (areNames_shelfOf hn s hs).noSlash,
      List.append_assoc, append_shelfNames]
    rfl
  exact .of_segments hsegs (by simp) (Nat.zero_le _) (way_of_at? h hn hfits hat) hplain (by decide)

/-- The path of the shelf that a new folder of a project would have leads to it. -/
lemma LeadsTo.new {project : Text} {home : List Text}
    (h : LeadsTo d (Preset.plainPath project) home []) :
    LeadsTo d (Preset.within project [folderName, subfolderName]) home shelfNames := by
  obtain ⟨front, hsegs, hfront⟩ := segments_joinText areNames_shelfNames (by simp [shelfNames])
    (Preset.plainPath project)
  obtain ⟨whole, links, hwhole, hlinks, hway⟩ := h.way
  rw [List.append_nil] at hwhole
  subst hwhole
  have hcounts : ∀ s : Text, (!s.isEmpty) = false → s = [] ∨ s = [.of '.'] := by simp
  have hway' : Way d links [] front home := by
    rw [← Way.filter_iff hcounts, hfront, Path.names, Way.filter_iff hcounts]
    exact hway
  refine ⟨isRefused_eq_false.2 ?_, front, links, hsegs, hlinks, hway'⟩
  rw [Preset.within, ← shelfNames, hsegs, List.forall_mem_append]
  refine ⟨fun s hs => ?_, by decide⟩
  by_cases hempty : s = []
  · subst hempty
    rfl
  · have hname : s ∈ Path.names (Preset.plainPath project) := by
      rw [← hfront]
      exact List.mem_filter.2 ⟨hs, by simpa using hempty⟩
    exact isRefused_eq_false.1 h.notRefused s (List.mem_filter.1 hname).1

/-- **The presets of some names are on the shelf of a project**, and nothing else is. The project
may be given by a path with links. As long as there is no preset, it needs no folder; directories
above it have none. -/
structure IsShelf (d : Disk) (project : Text) (home names : List Text) : Prop where
  /-- The disk is well-formed. -/
  wellFormed : d.WellFormed
  /-- All names are taken. -/
  namesTaken : d.HasPlainNames
  /-- No name is too long. -/
  limits : d.limits = none
  /-- The path of the project leads to a directory. -/
  project : LeadsTo d (Preset.plainPath project) home []
  /-- No directory above it has a folder. -/
  above : ∀ n, n <+: home → n ≠ home → d.at? (n ++ [folderName]) = none
  /-- Unless there is no folder, it has a shelf. -/
  folder : d.at? (home ++ [folderName]) = none ∨ d.at? (shelfOf home) = some .directory
  /-- What is on the shelf are presets of these names. -/
  only : ∀ last, d.at? (shelfOf home ++ [last]) ≠ none → ∃ name ∈ names, last = name ++ suffix
  /-- There is a file for each of the names, and it can be read. -/
  stored : ∀ name ∈ names, ∃ text : Text, text.IsEncodable ∧
    d.at? (fileOf home name) = some (.file text)
  /-- The names are different. -/
  distinct : names.Nodup
  /-- They are names that presets can have. -/
  accepted : ∀ name ∈ names, isBadName name = false
  /-- The system takes them. -/
  taken : ∀ name ∈ names, isRefused name = false

/-- The name of a file is refused if that of its preset is. -/
lemma isRefused_append_suffix (name : Text) : isRefused (name ++ suffix) = isRefused name := by
  have hsuffix : isRefused suffix = false := by decide
  rw [isRefused_append, hsuffix, Bool.or_false]

/-- A name that a preset can have has no NUL. -/
lemma nul_not_mem {name : Text} (h : isBadName name = false) : .of '\x00' ∉ name ++ suffix := by
  intro hmem
  rcases List.mem_append.1 hmem with hmem | hmem
  · simp [isBadName, hmem] at h
  · exact absurd hmem (by decide)

/-- The path of a preset leads to its place. -/
lemma LeadsTo.file {home : List Text} {directory name : Text}
    (hdirectory : LeadsTo d directory home shelfNames)
    (hname : isBadName name = false) (htaken : isRefused name = false) :
    LeadsTo d (Preset.within directory [name ++ suffix]) home (shelfNames ++ [name ++ suffix]) :=
  hdirectory.within areNames_shelfNames (by simp [shelfNames]) (isName_append_suffix hname)
    (by rwa [isRefused_append_suffix])

/-- A name with a surrogate that the system does not take spoils the path of the preset. -/
lemma LeadsTo.exists_refusalOf_eq {home : List Text} {directory name : Text}
    (hdirectory : LeadsTo d directory home shelfNames)
    (hname : isBadName name = false) (hrefused : isRefused name = true) :
    isRefused (Preset.within directory [name ++ suffix]) = true ∧
      ∃ e, refusalOf (Preset.within directory [name ++ suffix]) = .unencodable e := by
  have hfile := isName_append_suffix hname
  obtain ⟨base, -, hnames, -, -, hbase⟩ := hdirectory.plainNames_eq areNames_shelfNames
  have hsome : plainNames directory ≠ [] := by simp [hnames, shelfNames]
  obtain ⟨empties, hempties, hsegs, -⟩ := segments_file hfile hsome
  have hpath : isRefused (Preset.within directory [name ++ suffix]) = true := by
    by_contra htaken
    have hlast :=
      isRefused_eq_false.1 (Bool.eq_false_iff.2 htaken) (name ++ suffix) (by simp [hsegs])
    rw [isRefused_append_suffix, hrefused] at hlast
    cases hlast
  refine ⟨hpath, exists_refusalOf_eq_unencodable (fun hnul => ?_) hpath⟩
  obtain ⟨s, hs, hmem⟩ := exists_segment_of_mem hnul (by decide)
  rw [hsegs, hnames] at hs
  simp only [List.mem_append, List.mem_singleton] at hs
  have hplain : ∀ s : Text, isRefused s = false → .of '\x00' ∉ s := fun s hs hmem =>
    absurd (isRefused_eq_false_iff.1 hs _ hmem) (by decide)
  rcases hs with (hs | hs | hs) | rfl
  · rw [hempties s hs] at hmem
    cases hmem
  · exact hplain s (hbase s hs).2 hmem
  · exact absurd hmem (hplain s ((by decide : ∀ s ∈ shelfNames, isRefused s = false) s hs))
  · exact nul_not_mem hname hmem

namespace IsShelf

variable {project : Text} {home names : List Text} (h : IsShelf d project home names)
include h

/-! ### What is where -/

/-- There is a way along the path of the project. -/
lemma exists_way :
    ∃ links ≤ maxLinks, Way d links [] (Path.segments (Preset.plainPath project)) home := by
  obtain ⟨front, links, hsegs, hlinks, hway⟩ := h.project.way
  rw [List.append_nil] at hsegs
  exact ⟨links, hlinks, hsegs ▸ hway⟩

/-- The project is there. -/
lemma at?_home : d.at? home = some .directory := by
  obtain ⟨links, -, hway⟩ := h.exists_way
  exact hway.at?_last h.wellFormed at?_nil

/-- The project is at names. -/
lemma areNames_home : AreNames home := h.wellFormed.areNames_of_at? h.at?_home

/-- The names of the project are taken. -/
lemma notRefused_home : ∀ s ∈ home, isRefused s = false :=
  h.namesTaken.of_at? h.wellFormed h.at?_home

/-- The place of a preset holds a file, or nothing. -/
lemma at?_file (name : Text) :
    name ∈ names ∧ (∃ text : Text, text.IsEncodable ∧
        d.at? (fileOf home name) = some (.file text)) ∨
      name ∉ names ∧ d.at? (fileOf home name) = none := by
  by_cases hmem : name ∈ names
  · exact .inl ⟨hmem, h.stored name hmem⟩
  · refine .inr ⟨hmem, ?_⟩
    by_contra hsome
    obtain ⟨other, hother, heq⟩ := h.only _ hsome
    exact hmem (List.append_cancel_right heq ▸ hother)

/-- There is a shelf as soon as there is a preset. -/
lemma at?_shelf {name : Text} (hname : name ∈ names) : d.at? (shelfOf home) = some .directory := by
  obtain ⟨text, -, hat⟩ := h.stored name hname
  exact h.wellFormed.at?_of_prefix hat (List.prefix_append _ _) (by simp [fileOf])

/-- Nothing is in the way of a shelf. -/
lemma isClear : IsClear d home shelfNames := by
  have hprefixes : ∀ front, front <+: shelfNames → front ≠ [] →
      front = [folderName] ∨ front = shelfNames := by
    intro front hfront hne
    rw [shelfNames, ← List.singleton_append, List.prefix_concat_iff] at hfront
    rcases hfront with rfl | hfront
    · exact .inr rfl
    · obtain ⟨s, rest, rfl⟩ := List.exists_cons_of_ne_nil hne
      obtain ⟨rfl, hrest⟩ := List.cons_prefix_cons.1 hfront
      exact .inl (by rw [List.prefix_nil.1 hrest])
  intro front hfront hne
  rcases h.folder with hnone | hshelf
  · refine .inl ?_
    rcases hprefixes front hfront hne with rfl | rfl
    · exact hnone
    · rw [append_shelfNames]
      exact h.wellFormed.at?_append_eq_none hnone _
  · refine .inr ?_
    rcases hprefixes front hfront hne with rfl | rfl
    · exact h.wellFormed.at?_of_prefix hshelf (List.prefix_append _ _) (by simp [shelfOf])
    · rwa [append_shelfNames]

/-! ### The directory of presets -/

/-- The project can be resolved, be its path spelled plainly or not. -/
lemma refusal?_eq_none : d.fileSystem.refusal? project = none := by
  obtain ⟨links, -, hway⟩ := h.exists_way
  rw [← Way.filter_iff fun s => counts_eq_false, ← plainNames_eq, plainNames_plainPath,
    plainNames_eq, Way.filter_iff fun s => counts_eq_false] at hway
  have hreal := hway.realPath?_eq h.wellFormed (h.namesTaken.hasPlainWays h.wellFormed)
  simp only [fileSystem, hreal]

/-- The project is found where it is. -/
lemma resolve_eq : d.resolve (Preset.plainPath project) = .ok (below home).toText := by
  obtain ⟨links, -, hway⟩ := h.exists_way
  exact hway.resolve_eq h.wellFormed (h.namesTaken.hasPlainWays h.wellFormed) h.areNames_home

/-- Only the project may have a folder. -/
lemma hasFolder_eq {n : List Text} (hn : n <+: home) :
    hasFolder d n = .ok (decide (n = home ∧ d.at? (shelfOf home) = some .directory)) := by
  have hat : d.at? n = some .directory := by
    by_cases heq : n = home
    · rw [heq, h.at?_home]
    · exact h.wellFormed.at?_of_prefix h.at?_home hn heq
  have hfolder : d.at? (n ++ [folderName]) =
      if n = home ∧ d.at? (shelfOf home) = some .directory then some .directory else none := by
    by_cases heq : n = home
    · subst heq
      rcases h.folder with hnone | hshelf
      · have hmissing : d.at? (shelfOf n) = none := h.wellFormed.at?_append_eq_none hnone _
        rw [hnone, hmissing]
        simp
      · rw [h.wellFormed.at?_of_prefix hshelf (List.prefix_append _ _) (by simp [shelfOf]), hshelf]
        simp
    · rw [h.above n hn heq, if_neg fun hboth => heq hboth.1]
  have hplain : isRefused (below (n ++ [folderName])).toText = false := by
    refine Disk.isRefused_below (List.forall_mem_append.2 ⟨fun s hs => ?_, ?_⟩)
    · exact h.notRefused_home s (hn.subset hs)
    · exact List.forall_mem_singleton.2 (by decide)
  have hlink : ∀ target, d.at? (n ++ [folderName]) ≠ some (.link target) := by
    intro target
    rw [hfolder]
    split <;> simp
  rw [hasFolder_below h.wellFormed (fun s hs => h.areNames_home s (hn.subset hs)) hat hlink, hplain,
    isTooLong_of_limits h.limits, if_neg Bool.false_ne_true, if_neg Bool.false_ne_true, hfolder]
  split
  · rename_i hboth
    simp [hboth]
  · rename_i hnot
    simp [hnot]

/-- The path of the shelf leads to it. -/
lemma leadsTo_shelf : LeadsTo d (below (shelfOf home)).toText home shelfNames :=
  .shelfOf h.wellFormed h.at?_home (fun s _ => refusesName_of_limits h.limits s) h.notRefused_home

/-- The path of the shelf that a new folder of the project would have leads to it. -/
lemma leadsTo_new :
    LeadsTo d (Preset.within project [folderName, subfolderName]) home shelfNames :=
  h.project.new

/-- **The directory of presets leads to the shelf**, whether a folder is found or not. -/
theorem exists_directory :
    ∃ directory, directoryOf d project = .ok directory ∧ LeadsTo d directory home shelfNames := by
  have hnames : Path.names (below home).toText = home :=
    (isProper_below h.areNames_home).names_toText
  by_cases hshelf : d.at? (shelfOf home) = some .directory
  · have hnear : IsNearest d home home := by
      refine ⟨List.prefix_refl _, by rw [h.hasFolder_eq (List.prefix_refl _)]; simp [hshelf], ?_⟩
      exact fun hmore hbelow hne => absurd (hbelow.eq_of_length_le hmore.length_le) hne
    have hfound : folderAbove d home.reverse =
        .ok (some (Preset.within (below home).toText [folderName])) :=
      folderAbove_eq_some.2 ⟨home, by rwa [List.reverse_reverse], rfl⟩
    refine ⟨(below (shelfOf home)).toText, ?_, h.leadsTo_shelf⟩
    simp only [directoryOf, findFolder, h.resolve_eq, hnames, hfound, bind, Except.bind]
    rw [within_below h.areNames_home areNames_folderName,
      within_below (h.areNames_home.append areNames_folderName) areNames_subfolderName]
    rfl
  · have hfound : folderAbove d home.reverse = .ok none := by
      refine folderAbove_eq_none.2 fun n hn => ?_
      rw [List.reverse_reverse] at hn
      rw [h.hasFolder_eq hn]
      simp [hshelf]
    refine ⟨_, ?_, h.leadsTo_new⟩
    simp only [directoryOf, findFolder, h.resolve_eq, hnames, hfound, bind, Except.bind]
    rfl

/-! ### What is found -/

section Find

variable {path name : Text} (hpath : LeadsTo d path home (shelfNames ++ [name ++ suffix]))
include hpath

/-- With a shelf, there is a way to it along the path. -/
lemma exists_way_shelf (hshelf : d.at? (shelfOf home) = some .directory) :
    ∃ front links, Path.segments path = front ++ [name ++ suffix] ∧ links ≤ maxLinks ∧
      Way d links [] front (shelfOf home) := by
  obtain ⟨front, links, hsegs, hlinks, hway⟩ := hpath.way
  refine ⟨front ++ shelfNames, links, by rw [hsegs, List.append_assoc], hlinks, ?_⟩
  rw [← append_shelfNames] at hshelf ⊢
  exact hway.append_names h.limits h.wellFormed areNames_shelfNames hshelf

variable (hname : isBadName name = false)
include hname

/-- **A preset that is there is found.** -/
theorem find_of_mem {text : Text} (hat : d.at? (fileOf home name) = some (.file text)) :
    d.find path = .ok (fileOf home name, .file text) := by
  have hshelf : d.at? (shelfOf home) = some .directory :=
    h.wellFormed.at?_of_prefix hat (List.prefix_append _ _) (by simp [fileOf])
  obtain ⟨front, links, hsegs, hlinks, hway⟩ := h.exists_way_shelf hpath hshelf
  exact find_end h.limits hsegs (isName_append_suffix hname).isStep hway hlinks hat (by simp)

/-- **A preset that is not there is not found**, even if there is no shelf. -/
theorem find_of_not_mem (hat : d.at? (fileOf home name) = none) :
    d.find path = .error .noEntry := by
  have hfile := isName_append_suffix hname
  by_cases hshelf : d.at? (shelfOf home) = some .directory
  · obtain ⟨front, links, hsegs, hlinks, hway⟩ := h.exists_way_shelf hpath hshelf
    rw [fileOf] at hat
    rw [find, locate_end h.limits hsegs hfile.isStep hway hlinks (by simp [hat]), hat]
  · obtain ⟨front, links, hsegs, hlinks, hway⟩ := hpath.way
    have hnone : d.at? (home ++ shelfNames) = none := by
      have hthere := h.isClear shelfNames (List.prefix_refl _) (by simp [shelfNames])
      rw [append_shelfNames] at hthere ⊢
      exact hthere.resolve_right hshelf
    rw [find, locate_missing h.limits h.wellFormed .target areNames_shelfNames hfile.ne_nil hsegs
      hway hlinks h.isClear hnone]

/-- Asking for a preset tells whether it is there. -/
lemma probe_eq : d.probe path = .ok (if name ∈ names then some .file else none) := by
  rw [probe, hpath.notRefused, if_neg Bool.false_ne_true]
  rcases h.at?_file name with ⟨hmem, text, -, hat⟩ | ⟨hmem, hat⟩
  · rw [h.find_of_mem hpath hname hat, if_pos hmem]
    rfl
  · rw [h.find_of_not_mem hpath hname hat, if_neg hmem]

/-- What is read of a preset that is there. -/
lemma read_eq {text : Text} (htext : text.IsEncodable)
    (hat : d.at? (fileOf home name) = some (.file text)) : d.read path = .ok text :=
  read_eq_of_find hpath.notRefused (h.find_of_mem hpath hname hat) htext

end Find

/-- **Where a preset is looked for**: its path is made of its name, and leads to its place if it is
there. -/
theorem exists_path {name : Text} (hname : isBadName name = false) :
    ∃ directory, LeadsTo d directory home shelfNames ∧
      pathOf d project name = .ok (Preset.within directory [name ++ suffix]) ∧
      d.probe (Preset.within directory [name ++ suffix]) =
        .ok (if name ∈ names then some .file else none) := by
  obtain ⟨directory, hdirectory, hleads⟩ := h.exists_directory
  refine ⟨directory, hleads, ?_, ?_⟩
  · rw [pathOf, hname, if_neg Bool.false_ne_true, hdirectory]
    rfl
  · by_cases htaken : isRefused name = false
    · exact h.probe_eq (hleads.file hname htaken) hname
    · have hnone : name ∉ names := fun hmem => htaken (h.taken name hmem)
      obtain ⟨hrefused, -⟩ := hleads.exists_refusalOf_eq hname (by simpa using htaken)
      rw [probe, if_pos hrefused, if_neg hnone]

/-! ### What is listed -/

/-- The entries on the shelf are the files of the presets. -/
lemma childNames_perm :
    (d.childNames (shelfOf home)).Perm (names.map (· ++ suffix)) := by
  have hinjective : Function.Injective (fun name : Text => name ++ suffix) := fun _ _ heq =>
    List.append_cancel_right heq
  refine (List.perm_ext_iff_of_nodup (nodup_childNames h.wellFormed _)
    (h.distinct.map hinjective)).2 fun last => ?_
  rw [h.wellFormed.mem_childNames_iff, List.mem_map]
  constructor
  · rintro ⟨node, hat⟩
    obtain ⟨name, hname, rfl⟩ := h.only last (by simp [hat])
    exact ⟨name, hname, rfl⟩
  · rintro ⟨name, hname, rfl⟩
    obtain ⟨text, -, hat⟩ := h.stored name hname
    exact ⟨_, hat⟩

/-- Read off their entries, the names of the presets are what they were. -/
lemma decoded_perm (asked : Text) :
    ((((d.childNames (shelfOf home)).map (d.entry asked (shelfOf home))).filter
        (fun e => Text.endsWith e.name suffix)).map
      (fun e => Text.dropEnd suffix.length e.name)).Perm names := by
  have hends : ((d.childNames (shelfOf home)).map (d.entry asked (shelfOf home))).filter
      (fun e => Text.endsWith e.name suffix) =
        (d.childNames (shelfOf home)).map (d.entry asked (shelfOf home)) := by
    refine List.filter_eq_self.2 fun e he => ?_
    obtain ⟨last, hlast, rfl⟩ := List.mem_map.1 he
    obtain ⟨name, -, rfl⟩ := List.mem_map.1 (h.childNames_perm.subset hlast)
    rw [entry_name]
    exact Text.endsWith_iff.2 (List.suffix_append _ _)
  have hdecode : ∀ last, Text.dropEnd suffix.length (d.entry asked (shelfOf home) last).name =
      Text.dropEnd suffix.length last := fun last => by rw [entry_name]
  rw [hends, List.map_map]
  have hback := h.childNames_perm.map (Text.dropEnd suffix.length)
  simpa [Function.comp_def, hdecode] using hback

/-- With a shelf, the path of the directory of presets leads to it. -/
lemma find_directory {directory : Text} (hdirectory : LeadsTo d directory home shelfNames) :
    d.find directory =
      if d.at? (shelfOf home) = some .directory then .ok (shelfOf home, .directory)
      else .error .noEntry := by
  obtain ⟨front, links, hsegs, hlinks, hway⟩ := hdirectory.way
  have hsub : IsName subfolderName := areNames_subfolderName _ List.mem_cons_self
  have hsegs' : Path.segments directory = front ++ ([folderName] ++ [subfolderName]) := hsegs
  split
  · rename_i hshelf
    have hfolder : d.at? (home ++ [folderName]) = some .directory :=
      h.wellFormed.at?_of_prefix hshelf (List.prefix_append _ _) (by simp [shelfOf])
    rw [← List.append_assoc] at hsegs'
    exact find_end h.limits hsegs' hsub.isStep
      (hway.append_names h.limits h.wellFormed areNames_folderName hfolder) hlinks hshelf (by simp)
  · rename_i hshelf
    have hnone : d.at? (home ++ [folderName]) = none := h.folder.resolve_right hshelf
    have hclear : IsClear d home [folderName] := fun m hm => h.isClear m (hm.trans ⟨_, rfl⟩)
    rw [find, locate_missing h.limits h.wellFormed .target areNames_folderName hsub.ne_nil hsegs'
      hway hlinks hclear hnone]

end IsShelf

/-- **What is listed are the names on the shelf**, in order. -/
theorem IsShelf.names_run {s : Session} {project : Text} {home ns : List Text}
    (h : IsShelf s.disk project home ns) : (names project).run s = (.ok (Text.sort ns), s) := by
  obtain ⟨directory, hdirectory, hleads⟩ := h.exists_directory
  have hfind := h.find_directory hleads
  have hprobe : s.disk.probe directory =
      .ok (if s.disk.at? (shelfOf home) = some .directory then some .directory else none) := by
    rw [probe, hleads.notRefused, if_neg Bool.false_ne_true, hfind]
    by_cases hshelf : s.disk.at? (shelfOf home) = some .directory
    · rw [if_pos hshelf, if_pos hshelf]
      rfl
    · rw [if_neg hshelf, if_neg hshelf]
  simp only [names, Workflow.bind_run, Workflow.disk_run, Workflow.take_run, Workflow.probe_run]
  refine ⟨_, _, ⟨rfl, rfl⟩, directory, _, ⟨by rw [hdirectory]; rfl, rfl⟩, _, _, ⟨hprobe, rfl⟩, ?_⟩
  by_cases hshelf : s.disk.at? (shelfOf home) = some .directory
  · have hlist : s.disk.list directory = .ok
        ((s.disk.childNames (shelfOf home)).map (s.disk.entry directory (shelfOf home))) := by
      rw [list, hleads.notRefused, if_neg Bool.false_ne_true, hfind, if_pos hshelf]
    rw [if_pos hshelf, if_neg (by simp)]
    simp only [Workflow.bind_run, Workflow.take_run, Workflow.pure_run]
    refine ⟨_, _, ⟨by rw [hlist]; rfl, rfl⟩, ?_, rfl⟩
    rw [← Text.sort_eq_of_perm (h.decoded_perm directory)]
  · have hnil : ns = [] := by
      refine List.eq_nil_iff_forall_not_mem.2 fun name hname => hshelf (h.at?_shelf hname)
    rw [if_neg hshelf, if_pos (by simp), hnil]
    exact Workflow.pure_run.2 ⟨rfl, rfl⟩

end GlobPreset.Preset
