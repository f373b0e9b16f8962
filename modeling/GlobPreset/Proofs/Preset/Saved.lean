import GlobPreset.Proofs.FileSystem.Changes
import GlobPreset.Proofs.Preset.Paths
import GlobPreset.Proofs.Preset.Reading
import GlobPreset.Proofs.Preset.Tasks

/-!
# Loading what was saved

Saving a preset makes the directory of its file, and then writes the file. This may give the project
a folder of its own, but never one to a directory between the project and the folder that was found:
so the presets are looked for where they were put, and what is loaded is read from the text that was
written.

## Main definitions

* `Preset.hasFolder` — whether a directory has a folder, as looking for it tells.
* `Preset.IsNearest` — the nearest directory above some names that has a folder.
* `Preset.IsHome` — the directory whose folder keeps the presets of a project.
* `Preset.shelfOf` — where in the folder of a directory its presets are.

## Main results

* `Preset.folderAbove_eq_some`, `Preset.folderAbove_eq_none` — **what looking for a folder finds**.
* `Preset.pathOf_eq_ok` — **where the file of a preset is**.
* `Preset.IsHome.isNearest_of_filed` — writing the file leaves it there.
* `Preset.load_of_save` — **what is loaded is what is read from the text that was saved**.
* `Preset.load_of_save_iff` — when these are just the patterns that were saved.
* `Preset.load_of_save_of_isOneLine` — they are where the header tells one line each.
* `Preset.not_load_of_save` — a name with a line feed is read as a pattern in part.
-/

set_option autoImplicit false

namespace GlobPreset.Preset

open GlobPreset.Path Location Disk

variable {d d' : Disk}

/-! ### Looking for a folder -/

/-- A directory has a folder, as looking for it tells. -/
def hasFolder (d : Disk) (names : List Text) : Except FileError Bool :=
  (d.probe (within (below names).toText [folderName])).map
    (fun kind => decide (kind = some .directory))

/-- Looking for a folder is looking in a directory, and then in the one that holds it. -/
lemma folderAbove_cons {last : Text} {above : List Text} {found : Option Text} :
    folderAbove d (last :: above) = .ok found ↔
      hasFolder d (last :: above).reverse = .ok true ∧
          found = some (within (below (last :: above).reverse).toText [folderName]) ∨
        hasFolder d (last :: above).reverse = .ok false ∧ folderAbove d above = .ok found := by
  unfold hasFolder
  rw [folderAbove]
  cases hprobe : d.probe (within (below (last :: above).reverse).toText [folderName]) with
  | error e => simp [bind, Except.bind, Except.map]
  | ok kind =>
    by_cases hkind : kind = some .directory
    · simp [hkind, bind, Except.bind, Except.map, pure, Except.pure, eq_comm]
    · simp [hkind, bind, Except.bind, Except.map]

/-- At the root the search ends. -/
lemma folderAbove_nil {found : Option Text} :
    folderAbove d [] = .ok found ↔
      hasFolder d [] = .ok true ∧ found = some (within (below []).toText [folderName]) ∨
        hasFolder d [] = .ok false ∧ found = none := by
  unfold hasFolder folderAbove
  change (d.probe (within (below []).toText [folderName]) >>= _) = _ ↔ _
  cases hprobe : d.probe (within (below []).toText [folderName]) with
  | error e => simp [bind, Except.bind, Except.map]
  | ok kind =>
    by_cases hkind : kind = some .directory
    · simp [hkind, bind, Except.bind, Except.map, pure, Except.pure, eq_comm]
      rfl
    · simp [hkind, bind, Except.bind, Except.map, pure, Except.pure, eq_comm]

/-- A nearest directory with a folder: the last one on the way down to some names. -/
structure IsNearest (d : Disk) (names home : List Text) : Prop where
  /-- It is on the way down. -/
  above : home <+: names
  /-- It has a folder. -/
  here : hasFolder d home = .ok true
  /-- There is none further down. -/
  none_behind : ∀ {more}, home <+: more → more <+: names → more ≠ home →
    hasFolder d more = .ok false

/-- Going down, a directory without a folder does not count. -/
lemma isNearest_concat {names home : List Text} {last : Text} (hne : home ≠ names ++ [last]) :
    IsNearest d (names ++ [last]) home ↔
      hasFolder d (names ++ [last]) = .ok false ∧ IsNearest d names home := by
  constructor
  · intro hnear
    have habove := (List.prefix_concat_iff.1 hnear.above).resolve_left hne
    refine ⟨hnear.none_behind hnear.above (List.prefix_refl _) hne.symm, habove, hnear.here, ?_⟩
    exact fun hmore hnames => hnear.none_behind hmore (hnames.trans (List.prefix_append _ _))
  · rintro ⟨hlast, hnear⟩
    refine ⟨hnear.above.trans (List.prefix_append _ _), hnear.here, fun hmore hnames hother => ?_⟩
    rcases List.prefix_concat_iff.1 hnames with rfl | hnames
    · exact hlast
    · exact hnear.none_behind hmore hnames hother

/-- **The folder that is found** is that of the nearest directory that has one. -/
theorem folderAbove_eq_some {names : List Text} {folder : Text} :
    folderAbove d names = .ok (some folder) ↔ ∃ home, IsNearest d names.reverse home ∧
      folder = within (below home).toText [folderName] := by
  induction names with
  | nil =>
    rw [folderAbove_nil]
    constructor
    · rintro (⟨hhere, heq⟩ | ⟨-, heq⟩)
      · refine ⟨[], ⟨List.prefix_refl _, hhere, fun _ hnil hne => ?_⟩, Option.some.inj heq⟩
        exact absurd (List.prefix_nil.1 hnil) hne
      · cases heq
    · rintro ⟨home, hnear, rfl⟩
      obtain rfl := List.prefix_nil.1 hnear.above
      exact .inl ⟨hnear.here, rfl⟩
  | cons last above ih =>
    rw [folderAbove_cons, ih, List.reverse_cons]
    constructor
    · rintro (⟨hhere, heq⟩ | ⟨hnot, home, hnear, rfl⟩)
      · refine ⟨_, ⟨List.prefix_refl _, hhere, fun hmore hnames hne => ?_⟩, Option.some.inj heq⟩
        exact absurd (hnames.eq_of_length_le hmore.length_le) hne
      · refine ⟨home, (isNearest_concat ?_).2 ⟨hnot, hnear⟩, rfl⟩
        rintro rfl
        rw [hnear.here] at hnot
        cases hnot
    · rintro ⟨home, hnear, rfl⟩
      by_cases hhome : home = above.reverse ++ [last]
      · subst hhome
        exact .inl ⟨hnear.here, rfl⟩
      · obtain ⟨hnot, hnear⟩ := (isNearest_concat hhome).1 hnear
        exact .inr ⟨hnot, home, hnear, rfl⟩

/-- **No folder is found** if no directory on the way has one. -/
theorem folderAbove_eq_none {names : List Text} :
    folderAbove d names = .ok none ↔
      ∀ home, home <+: names.reverse → hasFolder d home = .ok false := by
  induction names with
  | nil => simp [folderAbove_nil]
  | cons last above ih =>
    simp only [folderAbove_cons, ih, List.reverse_cons, List.prefix_concat_iff, forall_eq_or_imp,
      reduceCtorEq, and_false, false_or]

/-! ### Where presets are kept -/

/-- A path within a directory is that of the names put together. -/
lemma within_below {names more : List Text} (hn : AreNames names) (hm : AreNames more) :
    within (below names).toText more = (below (names ++ more)).toText :=
  within_toText (isProper_below hn) hm

/-- The directory whose folder keeps the presets of a project: the nearest one that has a folder, or
else the project. -/
def IsHome (d : Disk) (project home : List Text) : Prop :=
  IsNearest d project home ∨
    (∀ above, above <+: project → hasFolder d above = .ok false) ∧ home = project

/-- The home of presets is the project or above it. -/
lemma IsHome.above {project home : List Text} (h : IsHome d project home) : home <+: project := by
  rcases h with h | ⟨-, rfl⟩
  · exact h.above
  · exact List.prefix_refl _

/-- The directory of the presets of a folder. -/
def shelfOf (home : List Text) : List Text := home ++ [folderName] ++ [subfolderName]

/-- A shelf has names if its home has. -/
lemma areNames_shelfOf {home : List Text} (hn : AreNames home) : AreNames (shelfOf home) :=
  (hn.append areNames_folderName).append areNames_subfolderName

/-- Whether a directory has a folder is decided by the entry of that name, if that is no link. -/
lemma hasFolder_below (h : d.WellFormed) {names : List Text} (hn : AreNames names)
    (hat : d.at? names = some .directory)
    (hlink : ∀ target, d.at? (names ++ [folderName]) ≠ some (.link target)) :
    hasFolder d names =
      if isRefused (below (names ++ [folderName])).toText then .ok false
      else if d.isTooLong (names ++ [folderName]) then
        .error (.system .nameTooLong (below (names ++ [folderName])).toText)
      else .ok (decide (d.at? (names ++ [folderName]) = some .directory)) := by
  rw [hasFolder, within_below hn areNames_folderName,
    h.probe_below (hn.append areNames_folderName) hat hlink]
  split
  · rfl
  split
  · rfl
  · cases d.at? (names ++ [folderName]) with
    | none => rfl
    | some node => cases node <;> rfl

section Places

variable (hu : d.IsUnlinked) (h : d.WellFormed)
include hu h

variable {project : List Text} (hn : AreNames project) (hat : d.at? project = some .directory)
include hn hat

/-- The folder of a project is looked for from the project on. -/
lemma findFolder_eq_ok {found : Option Text} :
    findFolder d (below project).toText = .ok found ↔
      d.resolve (below project).toText = .ok (below project).toText ∧
        folderAbove d project.reverse = .ok found := by
  have hl := isProper_below hn
  rw [findFolder, plainPath_toText hl, bind_eq_ok]
  constructor
  · rintro ⟨real, hreal, hfound⟩
    obtain rfl : real = (below project).toText := ((hu.resolve_below_eq_ok h hn hat).1 hreal).2
    rw [hl.names_toText] at hfound
    exact ⟨hreal, hfound⟩
  · rintro ⟨hreal, hfound⟩
    exact ⟨_, hreal, by rwa [hl.names_toText]⟩

/-- The directory of the presets of a project. -/
lemma directoryOf_eq_ok {directory : Text} :
    directoryOf d (below project).toText = .ok directory ↔
      d.resolve (below project).toText = .ok (below project).toText ∧
        ∃ home, IsHome d project home ∧ directory = (below (shelfOf home)).toText := by
  have hshelf : ∀ {home}, home <+: project →
      within (within (below home).toText [folderName]) [subfolderName] =
        (below (shelfOf home)).toText := by
    intro home habove
    have hhome : AreNames home := fun s hs => hn s (habove.subset hs)
    rw [within_below hhome areNames_folderName,
      within_below (hhome.append areNames_folderName) areNames_subfolderName, shelfOf]
  have hproject : within (below project).toText [folderName, subfolderName] =
      (below (shelfOf project)).toText := by
    have hboth : AreNames [folderName, subfolderName] :=
      areNames_folderName.append areNames_subfolderName
    rw [within_below hn hboth, shelfOf, List.append_assoc, List.singleton_append]
  rw [directoryOf, bind_eq_ok]
  simp only [findFolder_eq_ok hu h hn hat]
  constructor
  · rintro ⟨found, ⟨hreal, hfound⟩, hdirectory⟩
    refine ⟨hreal, ?_⟩
    cases found with
    | some folder =>
      obtain ⟨home, hnear, rfl⟩ := folderAbove_eq_some.1 hfound
      rw [List.reverse_reverse] at hnear
      exact ⟨home, .inl hnear, by rw [← hshelf hnear.above, ← pure_eq_ok.1 hdirectory]⟩
    | none =>
      have hnone := folderAbove_eq_none.1 hfound
      rw [List.reverse_reverse] at hnone
      exact ⟨project, .inr ⟨hnone, rfl⟩, by rw [← hproject, ← pure_eq_ok.1 hdirectory]⟩
  · rintro ⟨hreal, home, hnear | ⟨hnone, rfl⟩, rfl⟩
    · refine ⟨_, ⟨hreal, folderAbove_eq_some.2 ⟨home, ?_, rfl⟩⟩, ?_⟩
      · rwa [List.reverse_reverse]
      · exact pure_eq_ok.2 (hshelf hnear.above)
    · refine ⟨none, ⟨hreal, folderAbove_eq_none.2 ?_⟩, pure_eq_ok.2 hproject⟩
      rwa [List.reverse_reverse]

/-- **Where the file of a preset is**: in the folder of the project or of the nearest directory
above it that has one, or in a new one of the project. -/
theorem pathOf_eq_ok {name path : Text} :
    pathOf d (below project).toText name = .ok path ↔
      isBadName name = false ∧ d.resolve (below project).toText = .ok (below project).toText ∧
        ∃ home, IsHome d project home ∧
          path = (below (shelfOf home ++ [name ++ suffix])).toText := by
  rw [pathOf]
  by_cases hbad : isBadName name = true
  · simp [hbad]
  have hfile : ∀ {home}, IsHome d project home →
      within (below (shelfOf home)).toText [name ++ suffix] =
        (below (shelfOf home ++ [name ++ suffix])).toText := by
    intro home hhome
    refine within_below (areNames_shelfOf fun s hs => hn s (hhome.above.subset hs)) ?_
    exact areNames_singleton (isName_append_suffix (by simpa using hbad))
  rw [if_neg hbad, mapError_eq_ok, map_eq_ok]
  simp only [directoryOf_eq_ok hu h hn hat]
  constructor
  · rintro ⟨_, ⟨hreal, home, hhome, rfl⟩, rfl⟩
    exact ⟨by simpa using hbad, hreal, home, hhome, hfile hhome⟩
  · rintro ⟨-, hreal, home, hhome, rfl⟩
    exact ⟨_, ⟨hreal, home, hhome, rfl⟩, hfile hhome⟩

end Places

/-! ### Writing a file -/

section Filed

variable {project home more : List Text} {file content : Text}
  (hfiled : Filed d d' (shelfOf home) file content)
include hfiled

/-- A directory with a file on its shelf has a folder. -/
lemma hasFolder_of_filed (hn : AreNames home) (hat : d.at? home = some .directory) :
    hasFolder d' home = .ok true := by
  have hpath : shelfOf home ++ [file] = (home ++ [folderName]) ++ [subfolderName, file] := by
    simp [shelfOf]
  -- the path of the file goes through the folder, so the path of the folder is taken as well
  have hrefused := hfiled.notRefused
  have hlong := hfiled.notTooLong
  rw [hpath] at hrefused hlong
  obtain ⟨hrefused, hlong⟩ := takes_of_append hrefused hlong
  have hfolder : d'.at? (home ++ [folderName]) = some .directory := by
    rw [hfiled.at?_eq, if_neg (by simp [shelfOf]),
      if_pos (show _ <+: shelfOf home from List.prefix_append _ _)]
  rw [hasFolder_below hfiled.wellFormed hn (hfiled.at?_directory hat) (by simp [hfolder]),
    hrefused, isTooLong_eq hfiled.limits, hlong, hfolder]
  rfl

/-- Other directories that are further down have a folder if they had one before. -/
lemma hasFolder_eq_of_filed (h : d.WellFormed) (hn : AreNames more)
    (hat : d.at? more = some .directory)
    (hlink : ∀ target, d.at? (more ++ [folderName]) ≠ some (.link target)) (hmore : home <+: more)
    (hne : more ≠ home) : hasFolder d' more = hasFolder d more := by
  have hbeside : ¬ more ++ [folderName] <+: shelfOf home := by
    intro hlead
    rcases List.prefix_concat_iff.1 hlead with heq | hlead
    · exact absurd (List.append_inj_right' heq rfl) (by decide)
    · have hlength := hlead.length_le
      rw [List.length_append, List.length_append, Nat.add_le_add_iff_right] at hlength
      exact hne (hmore.eq_of_length_le hlength).symm
  have hsame : d'.at? (more ++ [folderName]) = some .directory ↔
      d.at? (more ++ [folderName]) = some .directory := by
    rw [hfiled.at?_eq, if_neg hbeside]
    split
    · rename_i heq
      rw [heq]
      exact iff_of_false (by simp) hfiled.notDirectory
    · rfl
  have hlink' : ∀ target, d'.at? (more ++ [folderName]) ≠ some (.link target) := by
    intro target
    rw [hfiled.at?_eq, if_neg hbeside]
    split
    · simp
    · exact hlink target
  rw [hasFolder_below hfiled.wellFormed hn (hfiled.at?_directory hat) hlink',
    hasFolder_below h hn hat hlink, isTooLong_eq hfiled.limits]
  simp only [hsame]

/-- **The folder that was found stays the nearest one** when a file is put on its shelf; a new
folder of the project is the nearest one from then on. A link that led nowhere could become a folder
further down. -/
theorem IsHome.isNearest_of_filed (h : d.WellFormed) (hn : AreNames project)
    (hat : d.at? project = some .directory)
    (hlink : ∀ names, names <+: project →
      ∀ target, d.at? (names ++ [folderName]) ≠ some (.link target))
    (hhome : IsHome d project home) : IsNearest d' project home := by
  have hplace : ∀ {names}, names <+: project →
      AreNames names ∧ d.at? names = some .directory := by
    intro names habove
    refine ⟨fun s hs => hn s (habove.subset hs), ?_⟩
    by_cases heq : names = project
    · rwa [heq]
    · exact h.at?_of_prefix hat habove heq
  obtain ⟨hnames, hdirectory⟩ := hplace hhome.above
  refine ⟨hhome.above, hasFolder_of_filed hfiled hnames hdirectory, ?_⟩
  intro more hmore habove hne
  obtain ⟨hnames, hdirectory⟩ := hplace habove
  rw [hasFolder_eq_of_filed hfiled h hnames hdirectory (hlink more habove) hmore hne]
  rcases hhome with hnear | ⟨hnone, -⟩
  · exact hnear.none_behind hmore habove hne
  · exact hnone more habove

end Filed

/-! ### What saving leaves -/

/-- The directory of a file. -/
lemma parent_below {front : List Text} {last : Text} (hne : front ≠ []) (hlast : .of '/' ∉ last) :
    Path.parent (below (front ++ [last])).toText = (below front).toText := by
  have hsplit : Text.splitLast? (.of '/') (below (front ++ [last])).toText =
      some ((below front).toText, last) := by
    refine Text.splitLast?_eq_some.2 ⟨?_, hlast⟩
    rw [toText, toText, below, below, ofSegments_append hne (List.cons_ne_nil last []),
      List.append_assoc]
    rfl
  rw [Path.parent, hsplit]

/-- **What storing a text leaves** on a disk without links: a file, and the directories that lead to
it. -/
lemma filed_of_store {s s' : Session} (hu : s.disk.IsUnlinked) (h : s.disk.WellFormed)
    {front : List Text} {last text : Text} {u : Unit} (hne : front ≠ [])
    (hn : AreNames (front ++ [last]))
    (hspecial : s.disk.probe (below (front ++ [last])).toText ≠ .ok (some .other))
    (hstore : (store (below (front ++ [last])).toText text).run s = (.ok u, s')) :
    Filed s.disk s'.disk front last text := by
  obtain ⟨hmade, -, d', hwrite, rfl⟩ := store_run.1 hstore
  have hlast : IsName last := hn last (by simp)
  rw [parent_below hne hlast.noSlash, makeDirectories] at hmade hwrite
  split at hmade
  · cases hmade
  rename_i hrefused
  rw [if_neg hrefused] at hwrite
  rw [(isProper_below hn.left).names_toText] at hmade hwrite
  have hmade := hu.made_of_makeLineage h (by simpa [below] using hn.left) hmade
  rw [List.reverse_reverse] at hmade
  exact Filed.of_write hu h hn hmade hspecial hwrite

section Load

variable {s s' : Session} {now : Timestamp} {project : List Text} {name path : Text}
  {patterns : List Text} {overwrite : Bool} {origin : Option PresetFile.Origin}
  (hu : s.disk.IsUnlinked) (h : s.disk.WellFormed) (hn : AreNames project)
  (hat : s.disk.at? project = some .directory)
  (hsave : (save now (below project).toText name patterns overwrite origin).run s = (.ok path, s'))
  (hspecial : s.disk.probe path ≠ .ok (some .other))
include hu h hn hat hsave hspecial

/-- **What is loaded is what is read from the text that was saved.** A special entry in the place of
the file would keep nothing. -/
theorem load_of_save :
    (load (below project).toText name).run s' =
      (.ok (PresetFile.patternLines
        (Text.unifyNewlines (PresetFile.render name patterns origin now))), s') := by
  obtain ⟨hpath, hstore⟩ := save_run hsave
  obtain ⟨hname, hreal, home, hhome, rfl⟩ := (pathOf_eq_ok hu h hn hat).1 hpath
  have hfile : AreNames (shelfOf home ++ [name ++ suffix]) :=
    (areNames_shelfOf fun s hs => hn s (hhome.above.subset hs)).append
      (areNames_singleton (isName_append_suffix hname))
  have hfiled : Filed s.disk s'.disk (shelfOf home) (name ++ suffix)
      (PresetFile.render name patterns origin now) :=
    filed_of_store hu h (by simp [shelfOf]) hfile hspecial hstore
  obtain ⟨-, htext, -⟩ := store_run.1 hstore
  have hdirectory := hfiled.at?_directory hat
  have hunlinked := hfiled.isUnlinked hu h
  have hreal' : s'.disk.resolve (below project).toText = .ok (below project).toText := by
    rwa [hunlinked.resolve_below_eq_ok hfiled.wellFormed hn hdirectory,
      ← hu.resolve_below_eq_ok h hn hat]
  have hnear : IsNearest s'.disk project home :=
    hhome.isNearest_of_filed hfiled h hn hat fun _ _ => hu.at?_ne_link h _
  have hpath' := (pathOf_eq_ok hunlinked hfiled.wellFormed hn hdirectory).2
    ⟨hname, hreal', home, .inl hnear, rfl⟩
  exact load_run.2 ⟨_, _, hpath', hfiled.probe_eq hfile, hfiled.read_eq hfile htext, rfl,
    rfl⟩

variable (hpatterns : ∀ p ∈ patterns, PresetFile.IsPatternLine p)
include hpatterns

/-- **Just the patterns that were saved are loaded** if and only if no pattern is read from a line
of the header. -/
theorem load_of_save_iff :
    (load (below project).toText name).run s' = (.ok patterns, s') ↔
      ∀ l ∈ PresetFile.header name origin now, PresetFile.patternLines l = [] := by
  rw [load_of_save hu h hn hat hsave hspecial, Prod.mk.injEq, and_iff_left rfl, Except.ok.injEq,
    PresetFile.patternLines_render_iff hpatterns]

/-- This is so where the header tells one line each. -/
theorem load_of_save_of_isOneLine (hname : name.any Text.isLineBoundary = false)
    (horigin : ∀ o ∈ origin, o.IsOneLine) :
    (load (below project).toText name).run s' = (.ok patterns, s') :=
  (load_of_save_iff hu h hn hat hsave hspecial hpatterns).2
    (PresetFile.patternLines_header hname horigin)

end Load

/-- A disk with an empty project. -/
def bareDisk : Disk where
  nodes := [([[.of 'p']], .directory)]
  limits := some .standard

/-- A name may hold a line feed, and what follows it is read as a pattern. -/
theorem not_load_of_save :
    ¬ ∀ (s s' : Session) (now : Timestamp) (project : List Text) (name path : Text)
      (patterns : List Text) (overwrite : Bool) (origin : Option PresetFile.Origin),
      s.disk.IsUnlinked → s.disk.WellFormed → AreNames project →
      s.disk.at? project = some .directory →
      (save now (below project).toText name patterns overwrite origin).run s = (.ok path, s') →
      s.disk.probe path ≠ .ok (some .other) → (∀ p ∈ patterns, PresetFile.IsPatternLine p) →
      (load (below project).toText name).run s' = (.ok patterns, s') := by
  intro hall
  obtain ⟨s', hsave, hloaded⟩ : ∃ s' : Session,
      (save ⟨2024, 1, 1, 0, 0, 0, none⟩ (below [[.of 'p']]).toText "a\nb".toText ["src/**".toText]
        false none).run ⟨bareDisk, []⟩ = (.ok "/p/.presetc/presets/a\nb.patterns".toText, s') ∧
      ((load (below [[.of 'p']]).toText "a\nb".toText).run s').1 =
        .ok ["b preset".toText, "src/**".toText] :=
    ⟨_, Prod.ext (by decide +kernel) rfl, by decide +kernel⟩
  have hback :=
    hall _ _ _ [[.of 'p']] _ _ _ _ _ (by decide) (by decide) (by decide) (by decide) hsave
    (by decide) (by decide)
  rw [hback] at hloaded
  exact absurd (Except.ok.inj hloaded) (by decide)

end GlobPreset.Preset
