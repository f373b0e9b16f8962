import GlobPreset.Proofs.FileSystem.Growth
import GlobPreset.Proofs.Preset.Leaving
import GlobPreset.Proofs.Preset.Shelving

/-!
# Room for a new preset

A text that is stored under the path of a preset is loaded by the name of the preset, although
storing it may make the folder in which presets are looked for from then on. This holds on disks
with links and with limits on names. What has to be excluded is that a folder in the project or
above it is a link that leads nowhere: with what is stored it may lead to a directory, and from then
on presets are looked for behind it.

## Main definitions

* `Preset.Added` — a file was added, and at most a directory of presets for it.
* `Preset.HasRoom` — a new preset can be put where its path leads.

## Main results

* `Disk.Way.last_eq_append` — where a way without links ends.
* `Preset.pathOf_of_isNearest` — the path of a preset, if there is a folder.
* `Preset.HasRoom.added_of_store`, `Preset.HasRoom.filed_of_store` — **what storing a text leaves**,
  in a folder that is there and in a new one.
* `Preset.HasRoom.exists_store` — **what is stored is loaded**.
* `Preset.not_load_danglingDisk` — a link that led nowhere gets in between.
* `Preset.IsShelf.hasRoom` — there is room on a shelf.

## Design

If there is a folder, the path of the preset is the same before and after, and may lead through
links anywhere; what matters is that no directory further down gets a folder. If there is none, the
new one is in the project, and nothing is further down.
-/

set_option autoImplicit false

namespace GlobPreset

open GlobPreset.Path Location

namespace Disk

variable {d d' : Disk}

/-- A way through names that meets no link goes from each directory into the next one. -/
lemma Way.last_eq_append {links : Nat} {current more last : List Text}
    (hway : Way d links current more last) (hn : AreNames more)
    (hlink : ∀ front, front <+: more → front ≠ [] →
      ∀ target, d.at? (current ++ front) ≠ some (.link target)) : last = current ++ more := by
  induction more generalizing links current with
  | nil =>
    cases hway
    rw [List.append_nil]
  | cons s more ih =>
    have hs : IsName s := hn s List.mem_cons_self
    cases hway with
    | stay hstay _ => exact absurd hstay (not_or.2 ⟨hs.ne_nil, hs.ne_dot⟩)
    | back _ => exact absurd rfl hs.ne_dots
    | enter _ _ _ hmore =>
      have hrest := ih hmore (fun t ht => hn t (List.mem_cons_of_mem s ht))
        fun front hfront _ target => by
          rw [List.append_assoc]
          exact hlink (s :: front) (List.cons_prefix_cons.2 ⟨rfl, hfront⟩) (by simp) target
      rw [hrest, List.append_assoc, List.singleton_append]
    | follow _ _ hat _ =>
      exact absurd hat (hlink [s] (by simp) (by simp) _)

/-- Directories and links have plain names once a file was written behind plain names. -/
lemma Filed.hasPlainWays {front : List Text} {last content : Text}
    (hfiled : Filed d d' front last content) (hplain : d.HasPlainWays)
    (hfront : ∀ s ∈ front, isRefused s = false) : d'.HasPlainWays := by
  intro n node hat hnode
  rw [hfiled.at?_eq] at hat
  split at hat
  · exact absurd (Option.some.inj hat).symm (hnode content)
  split at hat
  · rename_i hlead
    exact fun s hs => hfront s (hlead.subset hs)
  · exact hplain n node hat hnode

end Disk

namespace Preset

open Disk

/-- What is loaded by the name of a preset, where its path is known. -/
lemma load_of_find {s : Session} {project name path text : Text} {place : List Text}
    (hpath : pathOf s.disk project name = .ok path) (hrefused : isRefused path = false)
    (hfind : s.disk.find path = .ok (place, .file text)) (htext : text.IsEncodable) :
    (load project name).run s =
      (.ok (PresetFile.patternLines (Text.unifyNewlines text)), s) := by
  have hprobe : s.disk.probe path = .ok (some .file) := by
    rw [probe, hrefused, hfind]
    rfl
  exact load_run.2 ⟨path, text, hpath, hprobe, read_eq_of_find hrefused hfind htext, rfl, rfl⟩

/-- **The path of a preset** in the folder of the nearest directory that has one. -/
lemma pathOf_of_isNearest {d : Disk} {project name : Text} {root home : List Text}
    (hname : isBadName name = false) (hn : AreNames root)
    (hreal : d.resolve (plainPath project) = .ok (below root).toText)
    (hnear : IsNearest d root home) :
    pathOf d project name = .ok (below (fileOf home name)).toText := by
  have hnames : Path.names (below root).toText = root := (isProper_below hn).names_toText
  have hhome : AreNames home := fun s hs => hn s (hnear.above.subset hs)
  have hfound : folderAbove d root.reverse =
      .ok (some (within (below home).toText [folderName])) :=
    folderAbove_eq_some.2 ⟨home, by rwa [List.reverse_reverse], rfl⟩
  have hdirectory : directoryOf d project = .ok (below (shelfOf home)).toText := by
    simp only [directoryOf, findFolder, hreal, hnames, hfound, bind, Except.bind]
    rw [within_below hhome areNames_folderName,
      within_below (hhome.append areNames_folderName) areNames_subfolderName]
    rfl
  rw [pathOf, hname, if_neg Bool.false_ne_true, hdirectory, fileOf,
    ← within_below (areNames_shelfOf hhome) (areNames_singleton (isName_append_suffix hname))]
  rfl

/-- Making the directories of a file goes on from where the way of its path leads to. -/
lemma exists_lineage {d : Disk} {directory file : Text} {n more : List Text}
    (h : LeadsTo d directory n more) (hmore : AreNames more) (hne : more ≠ [])
    (hfile : IsName file)
    (hok : (d.makeDirectories (Path.parent (within directory [file]))).failure = none) :
    ∃ base links empties, (∀ s ∈ base, .of '/' ∉ s) ∧ links ≤ maxLinks ∧ Way d links [] base n ∧
      (∀ s ∈ empties, s = []) ∧
      Path.segments (within directory [file]) = (empties ++ (base ++ more)) ++ [file] ∧
      d.makeDirectories (Path.parent (within directory [file])) =
        d.makeLineage (base ++ more).reverse := by
  obtain ⟨base, links, hnames, hlinks, hway, hbase⟩ := h.plainNames_eq hmore
  obtain ⟨empties, hempties, hsegs, hparent⟩ :=
    segments_file hfile (show plainNames directory ≠ [] by simp [hnames, hne])
  unfold makeDirectories at hok ⊢
  split at hok
  · cases hok
  rename_i hrefused
  rw [hnames] at hsegs hparent
  rw [if_neg hrefused, hparent]
  exact ⟨base, links, empties, fun s hs => (hbase s hs).1, hlinks, hway, hempties, hsegs, rfl⟩

/-! ### What is added behind a folder -/

/-- A file was added that a path leads to, and at most a directory of presets for it. -/
structure Added (d d' : Disk) (path text : Text) : Prop where
  /-- The disk is well-formed as before. -/
  wellFormed : d'.WellFormed
  /-- What was there is there. -/
  grows : Grows d d'
  /-- The file is found. -/
  found : ∃ place, d'.find path = .ok (place, .file text)
  /-- Nothing else is new but a directory of presets. -/
  isNew : ∀ {n : List Text} {node : DiskNode}, d'.at? n = some node →
    d.at? n = some node ∨ node = .file text ∨
      ∃ front, d.at? front = some .directory ∧ n = front ++ [subfolderName] ∧ node = .directory

namespace Added

variable {d d' : Disk} {path text : Text} (hadded : Added d d' path text)
include hadded

/-- Directories and links have plain names with what was added. -/
lemma hasPlainWays (hplain : d.HasPlainWays) : d'.HasPlainWays := by
  intro n node hat hnode
  rcases hadded.isNew hat with hsame | hfile | ⟨front, hfront, rfl, -⟩
  · exact hplain n node hsame hnode
  · exact absurd hfile (hnode text)
  · rw [List.forall_mem_append, List.forall_mem_singleton]
    exact ⟨hplain front _ hfront (by simp), by decide⟩

/-- A directory has a folder if it had one before, unless the path of the folder led nowhere
although an entry of its name is there. -/
lemma hasFolder_eq (h : d.WellFormed) {home : List Text} (hn : AreNames home)
    (hat : d.at? home = some .directory)
    (hfind : d.at? (home ++ [folderName]) ≠ none →
      d.find (below (home ++ [folderName])).toText ≠ .error .noEntry) :
    hasFolder d' home = hasFolder d home := by
  by_cases hnone : d.at? (home ++ [folderName]) = none
  · -- what is new under another name is no folder, and a file is none
    have hfile : ∀ node, d'.at? (home ++ [folderName]) = some node → node = .file text := by
      intro node hnew
      rcases hadded.isNew hnew with hsame | hfile | ⟨front, -, heq, -⟩
      · rw [hnone] at hsame
        cases hsame
      · exact hfile
      · exact absurd (List.append_inj_right' heq rfl) (by decide)
    have hother : ∀ node, node ≠ .file text → d'.at? (home ++ [folderName]) ≠ some node :=
      fun node hnode hnew => hnode (hfile node hnew)
    rw [hasFolder_below hadded.wellFormed hn (hadded.grows.kept hat) fun _ => hother _ (by simp),
      hasFolder_below h hn hat (by simp [hnone]), isTooLong_eq hadded.grows.limits, hnone,
      decide_eq_false (hother .directory (by simp))]
    rfl
  · rw [hasFolder, hasFolder, within_below hn areNames_folderName,
      hadded.grows.probe_eq (hfind hnone)]

end Added

/-! ### Room -/

/-- **A new preset has room**: the project is a directory, nothing is at the path of the preset, and
a file can be made there. The path of the project may lead through links, and so may the one to the
folder of presets; but no folder is a link that leads nowhere. The system takes the path that the
preset has if the folder is a new one of the project. -/
structure HasRoom (d : Disk) (project name : Text) (root : List Text) : Prop where
  /-- The disk is well-formed. -/
  wellFormed : d.WellFormed
  /-- All names are taken. -/
  namesTaken : d.HasPlainNames
  /-- The path of the project leads to a directory. -/
  leads : LeadsTo d (plainPath project) root []
  /-- Unless there is a folder, the path of a preset of the project itself is not too long. -/
  fits : (∀ above, above <+: root → hasFolder d above = .ok false) →
    d.isTooLong (fileOf root name) = false
  /-- A folder in the project or above it that is a link leads somewhere, or fails otherwise. -/
  notDangling : ∀ above, above <+: root → ∀ target,
    d.at? (above ++ [folderName]) = some (.link target) →
      d.find (below (above ++ [folderName])).toText ≠ .error .noEntry
  /-- The preset is a new one, and an empty file can be made for it. -/
  vacant : ∃ path, pathOf d project name = .ok path ∧ d.probe path = .ok none ∧
    (d.makeDirectories (Path.parent path)).failure = none ∧
    ∃ d', (d.makeDirectories (Path.parent path)).disk.write path [] = .ok d'

namespace HasRoom

variable {d d' : Disk} {project name path : Text} {root home : List Text}
  (hroom : HasRoom d project name root)
include hroom

/-! ### Where the preset is put -/

/-- The directories above the project are there. -/
lemma at?_above (habove : home <+: root) : d.at? home = some .directory := by
  obtain ⟨front, links, -, -, hway⟩ := hroom.leads.way
  have hroot := hway.at?_last hroom.wellFormed at?_nil
  by_cases heq : home = root
  · rwa [heq]
  · exact hroom.wellFormed.at?_of_prefix hroot habove heq

/-- The directories above the project have names. -/
lemma areNames_above (habove : home <+: root) : AreNames home :=
  hroom.wellFormed.areNames_of_at? (hroom.at?_above habove)

/-- The names of directories above the project are taken. -/
lemma plain_above (habove : home <+: root) : ∀ s ∈ home, isRefused s = false :=
  hroom.namesTaken.of_at? hroom.wellFormed (hroom.at?_above habove)

/-- Directories and links have plain names. -/
lemma hasPlainWays : d.HasPlainWays := hroom.namesTaken.hasPlainWays hroom.wellFormed

/-- What is there under the name of a folder leads somewhere, or fails for another reason than a
missing entry. -/
lemma find_ne_noEntry (habove : home <+: root) (hsome : d.at? (home ++ [folderName]) ≠ none) :
    d.find (below (home ++ [folderName])).toText ≠ .error .noEntry := by
  by_cases hlink : ∃ target, d.at? (home ++ [folderName]) = some (.link target)
  · obtain ⟨target, hlink⟩ := hlink
    exact hroom.notDangling home habove target hlink
  · obtain ⟨node, hat⟩ := Option.ne_none_iff_exists'.1 hsome
    rw [hroom.wellFormed.find_below ((hroom.areNames_above habove).append areNames_folderName)
      (hroom.at?_above habove) (not_exists.1 hlink), hat]
    split <;> simp

/-- The system takes the name of the preset, for it takes the path. -/
lemma isRefused_name : isRefused name = false := by
  obtain ⟨path, hpath, -, -, d', hwrite⟩ := hroom.vacant
  unfold pathOf at hpath
  split at hpath
  · cases hpath
  rename_i hname
  have hfile : IsName (name ++ suffix) := isName_append_suffix (by simpa using hname)
  rw [mapError_eq_ok, map_eq_ok] at hpath
  obtain ⟨directory, -, rfl⟩ := hpath
  obtain ⟨front, hsegs, -⟩ := segments_joinText (areNames_singleton hfile) (by simp)
    (plainPath directory)
  rw [← isRefused_append_suffix]
  exact isRefused_eq_false.1 (isRefused_of_write hwrite) _ (by simp [within, hsegs])

/-- All names that lead to a preset of the project itself are taken. -/
lemma plain_fileOf : ∀ s ∈ fileOf root name, isRefused s = false := by
  rw [fileOf, ← append_shelfNames, List.forall_mem_append, List.forall_mem_append,
    List.forall_mem_singleton, isRefused_append_suffix]
  exact ⟨⟨hroom.plain_above (List.prefix_refl _), by decide⟩, hroom.isRefused_name⟩

/-- The path of a folder of the project is one that requests take. -/
lemma takes_folder (hnone : ∀ above, above <+: root → hasFolder d above = .ok false) :
    isRefused (below (root ++ [folderName])).toText = false ∧
      d.isTooLong (root ++ [folderName]) = false := by
  have hpath : fileOf root name = (root ++ [folderName]) ++ [subfolderName, name ++ suffix] := by
    simp [fileOf, shelfOf]
  have hrefused := isRefused_below hroom.plain_fileOf
  have hfits := hroom.fits hnone
  rw [hpath] at hrefused hfits
  exact takes_of_append hrefused hfits

/-- Presets are looked for from where the project is, also when the disk has grown. -/
lemma resolve_eq (hgrows : Grows d d') (h : d'.WellFormed) (hplain : d'.HasPlainWays) :
    d'.resolve (plainPath project) = .ok (below root).toText := by
  obtain ⟨front, links, hsegs, -, hway⟩ := hroom.leads.way
  rw [List.append_nil] at hsegs
  exact (hgrows.way (hsegs ▸ hway)).resolve_eq h hplain (hroom.areNames_above (List.prefix_refl _))

/-- **The path of the preset** is in the folder of the nearest directory that has one, or in a new
one of the project. -/
lemma path_cases (hpath : pathOf d project name = .ok path) :
    isBadName name = false ∧
      ((∃ home, IsNearest d root home ∧ path = (below (fileOf home name)).toText) ∨
        (∀ above, above <+: root → hasFolder d above = .ok false) ∧
          path = within (within project [folderName, subfolderName]) [name ++ suffix]) := by
  have hreal := hroom.resolve_eq (.refl d) hroom.wellFormed hroom.hasPlainWays
  have hn := hroom.areNames_above (List.prefix_refl _)
  have hwhole := hpath
  unfold pathOf at hpath
  split at hpath
  · cases hpath
  rename_i hname
  have hname : isBadName name = false := by simpa using hname
  refine ⟨hname, ?_⟩
  rw [mapError_eq_ok, map_eq_ok] at hpath
  obtain ⟨directory, hdirectory, rfl⟩ := hpath
  obtain ⟨found, hfound, hdirectory⟩ := bind_eq_ok.1 hdirectory
  obtain ⟨real, hreal', hfound⟩ := bind_eq_ok.1 hfound
  obtain rfl : (below root).toText = real := Except.ok.inj (hreal.symm.trans hreal')
  rw [(isProper_below hn).names_toText] at hfound
  cases found with
  | some folder =>
    obtain ⟨home, hnear, -⟩ := folderAbove_eq_some.1 hfound
    rw [List.reverse_reverse] at hnear
    have hplace := pathOf_of_isNearest hname hn hreal hnear
    exact .inl ⟨home, hnear, Except.ok.inj (hwhole.symm.trans hplace)⟩
  | none =>
    have hnone := folderAbove_eq_none.1 hfound
    rw [List.reverse_reverse] at hnone
    exact .inr ⟨hnone, by rw [← pure_eq_ok.1 hdirectory]⟩

/-! ### A preset in a folder that is there -/

section Near

variable (hname : isBadName name = false) (hnear : IsNearest d root home)
include hname hnear

omit hname in
/-- The path of the shelf goes through the folder, wherever that leads. -/
lemma exists_leadsTo : ∃ n, LeadsTo d (below (shelfOf home)).toText n [subfolderName] := by
  have hhome := hroom.areNames_above hnear.above
  have hn : AreNames (home ++ [folderName]) := hhome.append areNames_folderName
  obtain ⟨kind, hprobe, hkind⟩ := map_eq_ok.1 hnear.here
  obtain rfl : kind = some .directory := by simpa using hkind
  rw [within_below hhome areNames_folderName] at hprobe
  obtain ⟨links, hlinks, n, hway⟩ :=
    exists_way_plainNames hroom.wellFormed (probe_eq_some.1 hprobe)
  have hnames : plainNames (below (home ++ [folderName])).toText = home ++ [folderName] := by
    rw [plainNames, (isProper_below hn).names_toText]
    exact List.filter_eq_self.2 fun s hs => decide_eq_true (hn s hs).ne_dot
  rw [hnames] at hway
  have hsegs : Path.segments (below (shelfOf home)).toText =
      ([[]] ++ (home ++ [folderName])) ++ [subfolderName] := by
    rw [segments_below (by simp [shelfOf]) fun s hs => (areNames_shelfOf hhome s hs).noSlash]
    rfl
  refine ⟨n, .of_segments hsegs (by simp) hlinks hway ?_ (by decide)⟩
  exact List.forall_mem_append.2 ⟨hroom.plain_above hnear.above, by decide⟩

/-- **What storing a text leaves** behind a folder that is there. -/
theorem added_of_store {s s' : Session} {text : Text} (hd : s.disk = d)
    (hprobe : d.probe (below (fileOf home name)).toText = .ok none)
    (hstore : (store (below (fileOf home name)).toText text).run s = (.ok (), s')) :
    Added d s'.disk (below (fileOf home name)).toText text := by
  subst hd
  have hfile := isName_append_suffix hname
  have hsub : IsName subfolderName := areNames_subfolderName _ List.mem_cons_self
  rw [fileOf, ← within_below (areNames_shelfOf (hroom.areNames_above hnear.above))
    (areNames_singleton hfile)] at hprobe hstore ⊢
  obtain ⟨hmade, -, d', hwrite, rfl⟩ := store_run.1 hstore
  obtain ⟨n, hleads⟩ := hroom.exists_leadsTo hnear
  obtain ⟨base, links, empties, hbase, hlinks, hway, hempties, hsegs, hlineage⟩ :=
    exists_lineage hleads areNames_subfolderName (by simp) hfile hmade
  have hrefused := isRefused_of_write hwrite
  have hn := hway.at?_last hroom.wellFormed at?_nil
  rw [hlineage] at hmade hwrite
  -- the directory of presets was there, or it is new, and nothing is in it
  obtain ⟨hwell, hgrows, hnew, hmissing⟩ :
      (s.disk.makeLineage (base ++ [subfolderName]).reverse).disk.WellFormed ∧
      Grows s.disk (s.disk.makeLineage (base ++ [subfolderName]).reverse).disk ∧
      (∀ m node, (s.disk.makeLineage (base ++ [subfolderName]).reverse).disk.at? m = some node →
        s.disk.at? m = some node ∨ m = n ++ [subfolderName] ∧ node = .directory) ∧
      ∀ found, (s.disk.makeLineage (base ++ [subfolderName]).reverse).disk.find
        (within (below (shelfOf home)).toText [name ++ suffix]) ≠ .ok found := by
    rcases makeLineage_of_way hbase hway hlinks hsub hmade with heq | ⟨hfits, hnone, heq⟩
    · rw [heq]
      exact ⟨hroom.wellFormed, .refl _, fun _ _ hat => .inl hat, find_of_probe hrefused hprobe⟩
    · have hopened := Opened.put hroom.wellFormed hway hlinks hsub hfits hnone
      obtain ⟨links₁, hlinks₁, hway₁⟩ := hopened.way
      rw [heq]
      refine ⟨hopened.made.wellFormed, .put hnone _,
        fun m node hat => cases_of_at?_put (by simp) hat,
        find_of_way_of_none hsegs hfile.isStep ((Way.append_iff hempties).2 hway₁) hlinks₁ ?_⟩
      rw [at?_put_of_ne (by simp), hroom.wellFormed.at?_append_eq_none hnone]
  obtain ⟨place, hvacant, hfree, rfl, hfind⟩ := exists_place_of_write hwell hmissing hwrite
  refine ⟨hwell.put_of_vacant hvacant _, hgrows.trans (.put hfree _), ⟨place, hfind⟩, ?_⟩
  intro m node hat
  have hne : place ≠ [] := by
    rintro rfl
    cases hfree
  rcases cases_of_at?_put hne hat with hat | ⟨-, hfile⟩
  · exact (hnew m node hat).imp_right fun hdirectory => .inr ⟨n, hn, hdirectory⟩
  · exact .inr (.inl hfile)

omit hname in
/-- The nearest directory with a folder stays the nearest one. -/
lemma isNearest_of_added {text : Text} (hadded : Added d d' path text) :
    IsNearest d' root home := by
  have hsame : ∀ {above}, above <+: root → hasFolder d' above = hasFolder d above :=
    fun habove => hadded.hasFolder_eq hroom.wellFormed (hroom.areNames_above habove)
      (hroom.at?_above habove) (hroom.find_ne_noEntry habove)
  refine ⟨hnear.above, (hsame hnear.above).trans hnear.here, fun hmore hnames hne => ?_⟩
  exact (hsame hnames).trans (hnear.none_behind hmore hnames hne)

/-- **What is loaded** is what was stored. -/
theorem load_of_near {s s' : Session} {text : Text} (hd : s.disk = d)
    (hprobe : d.probe (below (fileOf home name)).toText = .ok none)
    (hstore : (store (below (fileOf home name)).toText text).run s = (.ok (), s')) :
    (load project name).run s' =
      (.ok (PresetFile.patternLines (Text.unifyNewlines text)), s') := by
  have hadded := hroom.added_of_store hname hnear hd hprobe hstore
  have hreal := hroom.resolve_eq hadded.grows hadded.wellFormed
    (hadded.hasPlainWays hroom.hasPlainWays)
  have hpath := pathOf_of_isNearest hname (hroom.areNames_above (List.prefix_refl _)) hreal
    (hroom.isNearest_of_added hnear hadded)
  obtain ⟨-, htext, d', hwrite, -⟩ := store_run.1 hstore
  obtain ⟨place, hfind⟩ := hadded.found
  exact load_of_find hpath (isRefused_of_write hwrite) hfind htext

end Near

/-! ### A preset in a new folder -/

section New

variable {directory : Text} (hname : isBadName name = false)
  (hdirectory : LeadsTo d directory root shelfNames)
  (hnone : ∀ above, above <+: root → hasFolder d above = .ok false)
include hname hdirectory

/-- **The directories of the preset**, if they can be made, are behind the project. -/
lemma opened_of_makeDirectories
    (hok : (d.makeDirectories (Path.parent (within directory [name ++ suffix]))).failure = none) :
    ∃ front names links, Path.segments (within directory [name ++ suffix]) =
        front ++ [name ++ suffix] ∧
      Opened d (d.makeDirectories (Path.parent (within directory [name ++ suffix]))).disk front
        names ∧
      links ≤ maxLinks ∧
      Way (d.makeDirectories (Path.parent (within directory [name ++ suffix]))).disk links root
        shelfNames names := by
  obtain ⟨base, links, empties, hbase, hlinks, hway, hempties, hsegs, hlineage⟩ :=
    exists_lineage hdirectory areNames_shelfNames (by simp [shelfNames])
      (isName_append_suffix hname) hok
  rw [hlineage] at hok ⊢
  obtain ⟨names, hmade, ⟨links₁, hlinks₁, hway₁⟩, hnew⟩ := opened_of_makeLineage hroom.wellFormed
    hbase hway hlinks areNames_shelfNames (by simp [shelfNames]) hok
  rw [Way.nil_cons_iff] at hway₁
  have hgrows := Grows.of_keepsFiles (keepsFiles_makeLineage _) hmade.limits
  obtain ⟨first, second, mid, hfirst, hsecond, rfl⟩ := hway₁.split
  obtain ⟨-, rfl⟩ := (hgrows.way hway).unique hfirst
  exact ⟨_, names, second, hsegs,
    ⟨hmade, ⟨_, hlinks₁, (Way.append_iff hempties).2 hway₁⟩, hnew⟩, by omega, hsecond⟩

include hnone

/-- **A new folder** is made where nothing is. -/
lemma at?_folder
    (hok : (d.makeDirectories (Path.parent (within directory [name ++ suffix]))).failure = none) :
    d.at? (root ++ [folderName]) = none := by
  have hn := hroom.areNames_above (List.prefix_refl _)
  have hfolder : AreNames (root ++ [folderName]) := hn.append areNames_folderName
  obtain ⟨front, names, links, -, hopened, hlinks, hway⟩ :=
    hroom.opened_of_makeDirectories hname hdirectory hok
  have hgrows := Grows.of_keepsFiles (keepsFiles_makeDirectories d _) hopened.made.limits
  have hwell := hopened.made.wellFormed
  generalize (d.makeDirectories (Path.parent (within directory [name ++ suffix]))).disk = d₁
    at hgrows hwell hway
  obtain ⟨hrefused, hfits⟩ := hroom.takes_folder hnone
  rw [isTooLong, Bool.or_eq_false_iff, List.any_append, Bool.or_eq_false_iff,
    List.any_eq_false] at hfits
  -- the way goes through the folder, so that the folder is found from then on
  rw [shelfNames, ← List.singleton_append] at hway
  obtain ⟨first, second, folder, hfirst, -, rfl⟩ := hway.split
  have hroot : Way d₁ 0 [] root root := hgrows.way (way_of_at? hroom.wellFormed hn
    (by simpa using hfits.2.1) (hroom.at?_above (List.prefix_refl _)))
  have hreach : Way d₁ (0 + first) [] (Path.segments (below (root ++ [folderName])).toText)
      folder := by
    rw [segments_below (by simp) fun s hs => (hfolder s hs).noSlash, Way.nil_cons_iff]
    exact hroot.append hfirst
  have hfind : d₁.find (below (root ++ [folderName])).toText = .ok (folder, .directory) :=
    find_of_way hwell (by simp [toText, below, anchorText])
      ((hgrows.refusesPath_eq _).trans hfits.1) hreach (by omega)
  by_contra hsome
  rw [hgrows.find_eq (hroom.find_ne_noEntry (List.prefix_refl _) hsome)] at hfind
  have hfalse := hnone root (List.prefix_refl _)
  rw [hasFolder, within_below hn areNames_folderName, probe, hrefused, hfind] at hfalse
  cases hfalse

/-- **What storing a text leaves** in a new folder: the file of the preset, and the directories that
lead to it. What was there is kept. -/
theorem filed_of_store {s s' : Session} {text : Text} (hd : s.disk = d)
    (hstore : (store (within directory [name ++ suffix]) text).run s = (.ok (), s')) :
    Filed d s'.disk (shelfOf root) (name ++ suffix) text ∧ Grows d s'.disk := by
  subst hd
  have hfile := isName_append_suffix hname
  obtain ⟨hmade, -, d', hwrite, rfl⟩ := store_run.1 hstore
  obtain ⟨front, names, links, hsegs, hopened, -, hway⟩ :=
    hroom.opened_of_makeDirectories hname hdirectory hmade
  have hbehind : ∀ more, s.disk.at? (root ++ [folderName] ++ more) = none :=
    hroom.wellFormed.at?_append_eq_none (hroom.at?_folder hname hdirectory hnone hmade)
  have hgrows := Grows.of_keepsFiles (keepsFiles_makeDirectories s.disk _) hopened.made.limits
  generalize (s.disk.makeDirectories (Path.parent (within directory [name ++ suffix]))).disk = d₁
    at hwrite hopened hway hgrows
  obtain rfl : names = shelfOf root := by
    rw [hway.last_eq_append areNames_shelfNames fun more hmore hne target => ?_,
      append_shelfNames]
    rw [hopened.made.at?_eq]
    split
    · simp
    · obtain ⟨first, rest, rfl⟩ := List.exists_cons_of_ne_nil hne
      obtain ⟨rfl, -⟩ := List.cons_prefix_cons.1 hmore
      rw [← List.singleton_append, ← List.append_assoc, hbehind]
      simp
  have hfree : d₁.at? (shelfOf root ++ [name ++ suffix]) = none := by
    rw [hopened.made.at?_eq, if_neg (not_concat_isPrefix _ _), shelfOf, List.append_assoc,
      hbehind]
  obtain ⟨links₁, hlinks₁, hreach⟩ := hopened.way
  obtain ⟨hvacant, rfl, -⟩ := put_of_write_of_way hopened.made.wellFormed hsegs hfile.isStep hreach
    hlinks₁ hfree hwrite
  refine ⟨⟨hopened.made.wellFormed.put_of_vacant hvacant _, hopened.made.limits, fun n => ?_, ?_,
    ?_, hroom.fits hnone⟩, hgrows.trans (.put hfree _)⟩
  · split
    · rename_i heq
      rw [heq]
      exact at?_put (by simp) _
    · rename_i hne
      exact (at?_put_of_ne hne _).trans (hopened.made.at?_eq n)
  · rw [shelfOf, List.append_assoc, hbehind]
    simp
  · exact isRefused_below hroom.plain_fileOf

/-- **What is loaded** is what was stored. -/
theorem load_of_new {s s' : Session} {text : Text} (hd : s.disk = d)
    (hstore : (store (within directory [name ++ suffix]) text).run s = (.ok (), s')) :
    (load project name).run s' =
      (.ok (PresetFile.patternLines (Text.unifyNewlines text)), s') := by
  have hn := hroom.areNames_above (List.prefix_refl _)
  have hfile := isName_append_suffix hname
  obtain ⟨hfiled, hgrows⟩ := hroom.filed_of_store hname hdirectory hnone hd hstore
  have hplain := hroom.plain_fileOf
  rw [fileOf, List.forall_mem_append] at hplain
  have hreal := hroom.resolve_eq hgrows hfiled.wellFormed
    (hfiled.hasPlainWays hroom.hasPlainWays hplain.1)
  -- the new folder is the nearest one
  have hnear : IsNearest s'.disk root root := by
    refine ⟨List.prefix_refl _,
      hasFolder_of_filed hfiled hn (hroom.at?_above (List.prefix_refl _)),
      fun hmore hnames hne => ?_⟩
    exact absurd (hnames.eq_of_length_le hmore.length_le) hne
  exact load_of_find (pathOf_of_isNearest hname hn hreal hnear) hfiled.notRefused
    (hfiled.find_eq ((areNames_shelfOf hn).append (areNames_singleton hfile)))
    (store_run.1 hstore).2.1

end New

/-- **What is stored is loaded**: any text without surrogates can be stored at the path of the
preset, and its patterns are those that are loaded by the name of the preset. -/
theorem exists_store {s : Session} {text : Text} (hd : s.disk = d) (htext : text.IsEncodable) :
    ∃ path s', pathOf d project name = .ok path ∧ d.probe path = .ok none ∧
      (store path text).run s = (.ok (), s') ∧ (load project name).run s' =
        (.ok (PresetFile.patternLines (Text.unifyNewlines text)), s') := by
  obtain ⟨path, hpath, hprobe, hmade, d', hwrite⟩ := hroom.vacant
  obtain ⟨e, he⟩ := exists_write_of_ok (hroom.wellFormed.makeDirectories _) hwrite text
  have hstore : (store path text).run s = (.ok (), { s with disk := e }) := by
    rw [← hd] at hmade he
    exact store_run.2 ⟨hmade, htext, e, he, rfl⟩
  refine ⟨path, _, hpath, hprobe, hstore, ?_⟩
  obtain ⟨hname, ⟨home, hnear, rfl⟩ | ⟨hnone, rfl⟩⟩ := hroom.path_cases hpath
  · exact hroom.load_of_near hname hnear hd hprobe hstore
  · exact hroom.load_of_new hname hroom.leads.new hnone hd hstore

end HasRoom

/-- A project in a directory with a folder, and a link of the name of folders in the project that
leads to the presets in that folder, of which there are none. -/
def danglingDisk : Disk where
  nodes := [(["a".toText], .directory), (["a".toText, folderName], .directory),
    (["a".toText, "q".toText], .directory),
    (["a".toText, "q".toText, folderName], .link "/a/.presetc/presets".toText)]
  limits := some .standard

/-- A preset is made in the folder above the project. From then on the link counts as a folder, and
the preset is not found behind it. -/
theorem not_load_danglingDisk :
    let made := (create ⟨2024, 1, 1, 0, 0, 0, none⟩ "/a/q".toText "x".toText ["*".toText]
      "minimal".toText .standard).run ⟨danglingDisk, []⟩
    made.1 = .ok "/a/.presetc/presets/x.patterns".toText ∧
      ((load "/a/q".toText "x".toText).run made.2).1 = .error (.presetMissing "x".toText) := by
  decide +kernel

/-- **A shelf has room** for a preset of a new name that the system takes. -/
theorem IsShelf.hasRoom {d : Disk} {project name : Text} {home ns : List Text}
    (h : IsShelf d project home ns) (hname : isBadName name = false)
    (htaken : isRefused name = false) (hnew : name ∉ ns) :
    HasRoom d project name home where
  wellFormed := h.wellFormed
  namesTaken := h.namesTaken
  leads := h.project
  fits _ := isTooLong_of_limits h.limits _
  notDangling above habove target hlink := by
    by_cases heq : above = home
    · subst heq
      have hfolder := h.isClear [folderName] ⟨_, rfl⟩ (by simp)
      rw [hlink] at hfolder
      simp at hfolder
    · rw [h.above above habove heq] at hlink
      cases hlink
  vacant := by
    obtain ⟨directory, hdirectory, hpath, hprobe⟩ := h.exists_path hname
    obtain ⟨hok, hmade⟩ := h.made_of_parent hname hdirectory
    have hwrite := (h.write_of_made hname hmade (hdirectory.file hname htaken) htaken
      Text.isEncodable_nil).1
    rw [if_neg hnew] at hprobe
    exact ⟨_, hpath, hprobe, hok, _, hwrite⟩

end Preset

end GlobPreset
