import GlobPreset.Proofs.FileSystem.Agreement
import GlobPreset.Proofs.FileSystem.Listed
import GlobPreset.Proofs.Scan.Distinct

/-!
# Walks where links lead in circles

Links to directories may lead back to where a walk came from. A walk turns back only there: it never
enters a directory that it is inside of, but it may enter a directory again under another name. So
every walk through a tree in memory comes to an end, and what it finds can be told without it: the
files to which names lead through different directories.

## Main definitions

* `Walk.Runs` — the events of a walk through a directory, without any fuel.
* `FileSystem.realsAlong` — the real paths of the directories that names lead through.
* `MemoryTree.IsWalkedTo` — names lead to a file through different directories that can be listed,
  past no ignored name.

## Main results

* `Walk.runs_below` — fuel for each directory is enough.
* `Walk.Runs.mem_files_iff` — what a walk finds among coherent answers.
* `MemoryTree.walk_exact` — **the walk through a tree in memory**, from any base.

## Design

`Walk.Runs` has a derivation only if the walk comes to an end, since each directory that is entered
is a part of the derivation. The fuel of `Walk.below` is dealt with once, in `Walk.runs_below`; what
is said about the files is an induction on the derivation.
-/

set_option autoImplicit false

namespace GlobPreset

open GlobPreset.Path

/-! ### Continued paths -/

/-- A name is a segment. -/
lemma Path.IsName.isSegment {s : Text} (h : IsName s) : IsSegment s := ⟨h.ne_nil, h.noSlash⟩

/-- **Different segments behind a path** give different paths. -/
lemma Path.eq_of_foldl_join {path : Text} {l m : List Text} (hl : ∀ s ∈ l, IsSegment s)
    (hm : ∀ s ∈ m, IsSegment s) (hne : l ≠ []) (hne' : m ≠ [])
    (h : l.foldl join path = m.foldl join path) : l = m := by
  have hsegs := congrArg segments h
  by_cases hpath : path = []
  · subst hpath
    obtain ⟨s, l, rfl⟩ := List.exists_cons_of_ne_nil hne
    obtain ⟨s', m, rfl⟩ := List.exists_cons_of_ne_nil hne'
    obtain ⟨hs, hl⟩ := List.forall_mem_cons.1 hl
    obtain ⟨hs', hm⟩ := List.forall_mem_cons.1 hm
    rwa [segments_foldl_join_nil hs hl, segments_foldl_join_nil hs' hm] at hsegs
  · rw [segments_foldl_join (fun s hs => (hl s hs).2) hpath,
      segments_foldl_join (fun s hs => (hm s hs).2) hpath] at hsegs
    exact List.append_cancel_left hsegs

/-! ### Walks without fuel -/

namespace Walk

/-- The events of an entry, of which `inner` are those of a directory that is entered. -/
def eventsOf (ignore : IgnoreRules) (path : Text) (inner : Entry → List Event) (e : Entry) :
    List Event :=
  match e.kind with
  | .directory => if ignore.ignoresDirectory e.name then [] else inner e
  | .file => if ignore.ignoresFile e.name then [] else [.found (join path e.name)]
  | .other => []

/-- A walk through the directory `path`, whose absolute path is `location`, inside of the
directories with the real paths `above`, comes to an end with these events. -/
inductive Runs (fs : FileSystem) (ignore : IgnoreRules) :
    (above : List Text) → (path location : Text) → List Event → Prop
  | turned {above : List Text} {path location : Text} (hinside : fs.realPath location ∈ above) :
      Runs fs ignore above path location [.warned (.cycle path)]
  | refused {above : List Text} {path location : Text} {error : FileError}
      (hnew : fs.realPath location ∉ above) (hlist : fs.sortedList location = .error error) :
      Runs fs ignore above path location [.warned (.unwalkable path error)]
  | listed {above : List Text} {path location : Text} {entries : List Entry}
      {inner : Entry → List Event} (hnew : fs.realPath location ∉ above)
      (hlist : fs.sortedList location = .ok entries)
      (hinner : ∀ e ∈ entries, e.kind = .directory → ignore.ignoresDirectory e.name = false →
        Runs fs ignore (fs.realPath location :: above) (join path e.name) e.path (inner e)) :
      Runs fs ignore above path location (entries.flatMap (eventsOf ignore path inner))

variable {fs : FileSystem} {ignore : IgnoreRules}

/-- **Fuel for each directory is enough** for a walk to come to an end.

**Proof sketch.** Induction on the fuel. The directories that the walk is inside of are different
ones of those that can be listed, so where the fuel is used up there are too many of them. -/
theorem runs_below (reals : List Text)
    (hreals : ∀ location entries, fs.list location = .ok entries → fs.realPath location ∈ reals) :
    ∀ {fuel : Nat} {above : List Text} {path location : Text}, above.Nodup → above ⊆ reals →
      reals.length < fuel + above.length →
      Runs fs ignore above path location (below fs ignore fuel above path location) := by
  intro fuel
  induction fuel with
  | zero =>
    intro above path location hnodup hsubset hlt
    have hle := (hnodup.subperm hsubset).length_le
    omega
  | succ fuel ih =>
    intro above path location hnodup hsubset hlt
    rw [below]
    by_cases hinside : fs.realPath location ∈ above
    · rw [if_pos (List.contains_iff_mem.2 hinside)]
      exact .turned hinside
    rw [if_neg fun hcontains => hinside (List.contains_iff_mem.1 hcontains)]
    cases hsorted : fs.sortedList location with
    | error e => exact .refused hinside hsorted
    | ok sorted =>
      obtain ⟨entries, hlist, -⟩ := FileSystem.sortedList_eq_ok hsorted
      refine .listed hinside hsorted fun e _ _ _ => ih (List.nodup_cons.2 ⟨hinside, hnodup⟩) ?_ ?_
      · exact List.cons_subset.2 ⟨hreals location entries hlist, hsubset⟩
      · rw [List.length_cons]
        omega

/-- The files of an entry. -/
lemma mem_eventsOf {path f : Text} {inner : Entry → List Event} {e : Entry} :
    f ∈ (eventsOf ignore path inner e).filterMap Event.file? ↔
      (e.kind = .directory ∧ ignore.ignoresDirectory e.name = false ∧
          f ∈ (inner e).filterMap Event.file?) ∨
        (e.kind = .file ∧ ignore.ignoresFile e.name = false ∧ f = join path e.name) := by
  unfold eventsOf
  cases e.kind with
  | directory => cases ignore.ignoresDirectory e.name <;> simp
  | file => cases ignore.ignoresFile e.name <;> simp [Event.file?]
  | other => simp

/-- **No file is found twice**: different entries lead to different files.

**Proof sketch.** Induction on the derivation. An entry leads to its directory, continued by the
name of the entry and further names, and the names of a listing are different. -/
theorem Runs.nodup_files (hs : fs.ListsApart) {above : List Text} {path location : Text}
    {events : List Event} (hrun : Runs fs ignore above path location events) :
    (events.filterMap Event.file?).Nodup ∧ ∀ f ∈ events.filterMap Event.file?,
      ∃ l : List Text, l ≠ [] ∧ (∀ s ∈ l, IsSegment s) ∧ f = l.foldl join path := by
  induction hrun with
  | turned _ => exact ⟨List.nodup_nil, fun _ hf => absurd hf List.not_mem_nil⟩
  | refused _ _ => exact ⟨List.nodup_nil, fun _ hf => absurd hf List.not_mem_nil⟩
  | @listed above path location sorted inner _ hlist _ ih =>
    have hgood := hs.segments.sorted hlist
    -- what an entry leads to starts with its name
    have hentry : ∀ e ∈ sorted, ∀ f ∈ (eventsOf ignore path inner e).filterMap Event.file?,
        ∃ l : List Text, (∀ s ∈ l, IsSegment s) ∧ f = (e.name :: l).foldl join path := by
      intro e he f hf
      rcases mem_eventsOf.1 hf with ⟨hkind, hkept, hf⟩ | ⟨-, -, rfl⟩
      · obtain ⟨l, -, hl, rfl⟩ := (ih e he hkind hkept).2 f hf
        exact ⟨l, hl, rfl⟩
      · exact ⟨[], by simp, rfl⟩
    rw [List.filterMap_flatMap]
    constructor
    · rw [List.nodup_flatMap]
      constructor
      · intro e he
        unfold eventsOf
        cases hkind : e.kind with
        | directory =>
          cases hkept : ignore.ignoresDirectory e.name with
          | true => simp
          | false => exact (ih e he hkind hkept).1
        | file => cases ignore.ignoresFile e.name <;> simp [Event.file?]
        | other => simp
      · obtain ⟨entries, hentries, -⟩ := FileSystem.sortedList_eq_ok hlist
        have hnames : (sorted.map Entry.name).Nodup := by
          rw [FileSystem.sortedList, hentries] at hlist
          cases hlist
          exact ((sortBy_perm _ _).map Entry.name).nodup_iff.2 (hs.nodup _ _ hentries)
        refine (List.pairwise_map.1 hnames).imp_of_mem fun {e e'} he he' hne f hf hf' => ?_
        obtain ⟨l, hl, rfl⟩ := hentry e he f hf
        obtain ⟨l', hl', heq⟩ := hentry e' he' _ hf'
        exact hne (head_eq_of_foldl_join (hgood e he) hl (hgood e' he') hl' heq)
    · intro f hf
      obtain ⟨e, he, hf⟩ := List.mem_flatMap.1 hf
      obtain ⟨l, hl, rfl⟩ := hentry e he f hf
      exact ⟨e.name :: l, List.cons_ne_nil _ _, List.forall_mem_cons.2 ⟨hgood e he, hl⟩, rfl⟩

end Walk

/-! ### Directories on the way -/

namespace FileSystem

variable {fs : FileSystem} {ignore : IgnoreRules} {root : Text}

/-- The real paths of the directories that `rel` leads through, from the directory `names` on. -/
def realsAlong (fs : FileSystem) (root : Text) : (names rel : List Text) → List Text
  | _, [] => []
  | names, name :: rel =>
    fs.realPath (inside root names) :: realsAlong fs root (names ++ [name]) rel

/-- Every directory on the way to a file that is reached is listed. -/
lemma Reaches.exists_list {names rel : List Text} (h : fs.Reaches ignore root names rel) :
    ∀ part, part <+: rel → part ≠ rel →
      ∃ entries, fs.list (inside root (names ++ part)) = .ok entries := by
  induction h with
  | @file names entries e hlist _ _ _ =>
    intro part hpart hne
    rcases List.prefix_cons_iff.1 hpart with rfl | ⟨rest, rfl, hrest⟩
    · exact ⟨entries, by rwa [List.append_nil]⟩
    · rw [List.prefix_nil.1 hrest] at hne
      exact absurd rfl hne
  | @inner names entries e rel hlist _ _ _ _ ih =>
    intro part hpart hne
    rcases List.prefix_cons_iff.1 hpart with rfl | ⟨rest, rfl, hrest⟩
    · exact ⟨entries, by rwa [List.append_nil]⟩
    · rw [List.append_cons]
      exact ih rest hrest fun heq => hne (by rw [heq])

/-- **A file is reached through directories that are listed**, past names that are not ignored. -/
lemma reaches_of_list (hp : fs.IsProject root) {rel : List Text} :
    ∀ {names : List Text}, rel ≠ [] → AreNames (names ++ rel) →
      fs.kind? (inside root (names ++ rel)) = some .file →
      (∀ part, part <+: rel → part ≠ rel →
        ∃ entries, fs.list (inside root (names ++ part)) = .ok entries) →
      ignore.crossesNames rel = false → fs.Reaches ignore root names rel := by
  induction rel with
  | nil => exact fun hne => absurd rfl hne
  | cons name rel ih =>
    intro names _ hn hfile hlisted hkept
    obtain ⟨entries, hlist⟩ := hlisted [] List.nil_prefix (List.cons_ne_nil _ _).symm
    rw [List.append_nil] at hlist
    have hname : IsName name := hn.right name List.mem_cons_self
    by_cases hrel : rel = []
    · subst hrel
      obtain ⟨e, he, rfl, hkind⟩ := hp.listed hn.left hname hfile hlist
      exact .file hlist he hkind (by simpa [IgnoreRules.crossesNames] using hkept)
    · rw [List.append_cons] at hn hfile
      have hdir := hp.directory_above hrel hn (by rw [hfile]; rfl)
      obtain ⟨e, he, rfl, hkind⟩ := hp.listed hn.left.left hname hdir hlist
      rw [ignore.crossesNames_cons _ hrel, Bool.or_eq_false_iff] at hkept
      refine .inner hlist he hkind hkept.1 (ih hrel hn hfile (fun part hpart hne => ?_) hkept.2)
      rw [← List.append_cons]
      exact hlisted (e.name :: part) (List.cons_prefix_cons.2 ⟨rfl, hpart⟩)
        fun heq => hne (List.cons.inj heq).2

end FileSystem

/-- **What a walk finds among coherent answers** is what is reached through directories with
different real paths, none of which it is inside of already. -/
theorem Walk.Runs.mem_files_iff {fs : FileSystem} {ignore : IgnoreRules} {root : Text}
    (hp : fs.IsProject root) {above : List Text} {path location : Text} {events : List Event}
    (hrun : Runs fs ignore above path location events) :
    ∀ {names : List Text}, AreNames names → location = inside root names → ∀ f,
      f ∈ events.filterMap Event.file? ↔
        ∃ rel, fs.Reaches ignore root names rel ∧ (fs.realsAlong root names rel).Nodup ∧
          (∀ real ∈ fs.realsAlong root names rel, real ∉ above) ∧ f = rel.foldl join path := by
  induction hrun with
  | @turned above path location hinside =>
    rintro names _ rfl f
    refine iff_of_false (by simp [Event.file?]) ?_
    rintro ⟨rel, hrel, -, hnew, -⟩
    obtain ⟨name, rel, rfl⟩ := List.exists_cons_of_ne_nil hrel.ne_nil
    exact hnew _ List.mem_cons_self hinside
  | @refused above path location error _ hlist =>
    rintro names _ rfl f
    refine iff_of_false (by simp [Event.file?]) ?_
    rintro ⟨rel, hrel, -⟩
    obtain ⟨entries, hok⟩ := hrel.exists_list [] List.nil_prefix hrel.ne_nil.symm
    rw [List.append_nil] at hok
    rw [FileSystem.sortedList, hok] at hlist
    cases hlist
  | @listed above path location sorted inner hnew hsorted _ ih =>
    rintro names hn rfl f
    obtain ⟨entries, hlist, hmem⟩ := FileSystem.sortedList_eq_ok hsorted
    have hinner : ∀ e ∈ entries, AreNames (names ++ [e.name]) := fun e he =>
      hn.append (areNames_singleton (hp.isName hn hlist he))
    rw [List.filterMap_flatMap, List.mem_flatMap]
    constructor
    · rintro ⟨e, he, hf⟩
      have he' := (hmem e).1 he
      rcases mem_eventsOf.1 hf with ⟨hkind, hkept, hf⟩ | ⟨hkind, hkept, rfl⟩
      · obtain ⟨rel, hrel, hnodup, hother, rfl⟩ :=
          (ih e he hkind hkept (hinner e he') (hp.path_eq hn hlist he') f).1 hf
        refine ⟨e.name :: rel, .inner hlist he' hkind hkept hrel, ?_, ?_, rfl⟩
        · exact List.nodup_cons.2 ⟨fun hreal => hother _ hreal List.mem_cons_self, hnodup⟩
        · exact List.forall_mem_cons.2
            ⟨hnew, fun real hreal habove => hother real hreal (List.mem_cons_of_mem _ habove)⟩
      · exact ⟨[e.name], .file hlist he' hkind hkept, List.nodup_singleton _,
          List.forall_mem_singleton.2 hnew, rfl⟩
    · rintro ⟨rel, hrel, hnodup, hother, rfl⟩
      cases hrel with
      | @file _ entries' e hlist' he hkind hkept =>
        obtain rfl : entries = entries' := Except.ok.inj (hlist.symm.trans hlist')
        exact ⟨e, (hmem e).2 he, mem_eventsOf.2 (.inr ⟨hkind, hkept, rfl⟩)⟩
      | @inner _ entries' e rel hlist' he hkind hkept hrel =>
        obtain rfl : entries = entries' := Except.ok.inj (hlist.symm.trans hlist')
        obtain ⟨hfirst, hnodup⟩ := List.nodup_cons.1 hnodup
        refine ⟨e, (hmem e).2 he, mem_eventsOf.2 (.inl ⟨hkind, hkept, ?_⟩)⟩
        refine (ih e ((hmem e).2 he) hkind hkept (hinner e he) (hp.path_eq hn hlist he) _).2
          ⟨rel, hrel, hnodup, fun real hreal habove => ?_, rfl⟩
        rcases List.mem_cons.1 habove with rfl | habove
        · exact hfirst hreal
        · exact hother real (List.mem_cons_of_mem _ hreal) habove

/-! ### Trees in memory -/

namespace MemoryTree

open Location

variable {t : MemoryTree} {ignore : IgnoreRules}

/-- From a location, names lead to a file: through directories that can be listed, of which no two
are really the same, and past no ignored name. -/
structure IsWalkedTo (t : MemoryTree) (ignore : IgnoreRules) (l : Location) (names : List Text) :
    Prop where
  /-- A file is there. -/
  file : t.kind? (inside l.toText names) = some .file
  /-- What is on the way to it are directories that do not refuse to be listed. -/
  readable : ∀ part, part <+: names → part ≠ names →
    t.kind? (inside l.toText part) = some .directory ∧
      t.realLocation (inside l.toText part) ∉ t.unreadable
  /-- They have different real paths. -/
  distinct : (t.fileSystem.realsAlong l.toText [] names).Nodup
  /-- No name is ignored. -/
  kept : ignore.crossesNames names = false

/-- **A directory is listed** unless it refuses to be. -/
lemma exists_list_iff (h : t.WellFormed) {l : Location} (hl : l.IsProper) :
    (∃ entries, t.list l.toText = .ok entries) ↔
      t.kind? l.toText = some .directory ∧ t.realLocation l.toText ∉ t.unreadable := by
  have hdir : t.kind? l.toText = some .directory ↔ t.realLocation l.toText ∈ t.directories :=
    ⟨mem_directories_of_kindAt?, h.kindAt?_of_directory⟩
  rw [hdir]
  simp only [list, locate_toText hl, List.contains_iff_mem]
  by_cases hreal : t.realLocation l.toText ∈ t.unreadable
  · simp [hreal]
  · by_cases hmem : t.realLocation l.toText ∈ t.directories
    · simp [hreal, hmem]
    · simp only [hreal, hmem, if_false, false_and, iff_false, not_exists]
      intro entries
      split <;> simp

/-- A request means the location that its path is read as. -/
lemma below_locate (h : t.Rooted) (fuel : Nat) (path raw : Text) :
    Walk.below t.fileSystem ignore fuel [] path (t.locate raw).toText =
      Walk.below t.fileSystem ignore fuel [] path raw := by
  have hlocate : t.locate (t.locate raw).toText = t.locate raw :=
    locate_toText (h.locate_isProper raw)
  have hreal : t.fileSystem.realPath (t.locate raw).toText = t.fileSystem.realPath raw := by
    simp only [fileSystem, realLocation, realNames, hlocate]
  have hlist : t.fileSystem.sortedList (t.locate raw).toText = t.fileSystem.sortedList raw := by
    simp only [FileSystem.sortedList, fileSystem, list, hlocate]
  cases fuel with
  | zero => rfl
  | succ fuel => rw [Walk.below, Walk.below, hreal, hlist]

/-- The walk from a base that is a directory. -/
lemma start_of_directory (ignore : IgnoreRules) {root base : Text}
    (hdir : t.kind? (absolute root base) = some .directory) :
    Walk.start t.fileSystem ignore root base =
      Walk.below t.fileSystem ignore (t.fileSystem.depthBound + 1) [] base
        (absolute root base) := by
  have hkind : t.fileSystem.kind? (absolute root base) = some .directory := hdir
  simp [Walk.start, FileSystem.isFile, FileSystem.isDirectory, hkind]

/-- The walk from a base that is no directory. -/
lemma files_of_not_directory (ignore : IgnoreRules) {root base : Text}
    (hdir : t.kind? (absolute root base) ≠ some .directory) :
    Walk.files t.fileSystem ignore root base =
      if base ≠ [] ∧ t.kind? (absolute root base) = some .file then [base] else [] := by
  have hkind : t.fileSystem.kind? (absolute root base) = t.kind? (absolute root base) := rfl
  by_cases hfile : base ≠ [] ∧ t.kind? (absolute root base) = some .file
  · simp [Walk.files, Walk.start, FileSystem.isFile, hkind, hfile, Walk.Event.file?]
  · rw [if_neg hfile]
    simp only [not_and_or, not_not] at hfile
    rcases hfile with rfl | hfile
    · simp [Walk.files, Walk.start, FileSystem.isDirectory, hkind, hdir]
    · simp [Walk.files, Walk.start, FileSystem.isFile, FileSystem.isDirectory, hkind, hdir, hfile]

/-- **A walk through a tree comes to an end**: what can be listed are directories of the tree. -/
lemma runs_below (h : t.WellFormed) (ignore : IgnoreRules) (path location : Text) :
    Walk.Runs t.fileSystem ignore [] path location
      (Walk.below t.fileSystem ignore (t.fileSystem.depthBound + 1) [] path location) := by
  refine Walk.runs_below (t.directories.map Location.toText)
    (fun location entries hlist => ?_) List.nodup_nil (List.nil_subset _) ?_
  · have hproper := h.locate_isProper location
    have hlocate : t.locate (t.locate location).toText = t.locate location := locate_toText hproper
    have hlist' : t.list (t.locate location).toText = .ok entries := by
      rw [← show t.list location = .ok entries from hlist]
      simp only [list, hlocate]
    have hmem := mem_directories_of_list hproper hlist'
    simp only [realNames, hlocate] at hmem
    exact List.mem_map_of_mem hmem
  · show (t.directories.map Location.toText).length < t.directories.length + 1 + 1 + 0
    rw [List.length_map]
    omega

/-- What a walk from a directory finds is reached through different directories. -/
lemma mem_files_iff (h : t.WellFormed) {root base : Text}
    (hdir : t.kind? (absolute root base) = some .directory) (f : Text) :
    f ∈ Walk.files t.fileSystem ignore root base ↔
      ∃ rel, t.fileSystem.Reaches ignore (t.locate (absolute root base)).toText [] rel ∧
        (t.fileSystem.realsAlong (t.locate (absolute root base)).toText [] rel).Nodup ∧
        f = rel.foldl join base := by
  have hruns := runs_below h ignore base (t.locate (absolute root base)).toText
  rw [Walk.files, start_of_directory ignore hdir, ← below_locate h.toRooted,
    hruns.mem_files_iff (isProject h (h.locate_isProper _)) areNames_nil rfl]
  simp

/-- **A file that is there is reached** through directories that are listed. -/
lemma isWalkedTo_iff (h : t.WellFormed) {l : Location} (hl : l.IsProper) {names : List Text}
    (hne : names ≠ []) (hn : AreNames names) (hlimit : t.WithinLimit (l.segments ++ names)) :
    t.IsWalkedTo ignore l names ↔
      t.fileSystem.Reaches ignore l.toText [] names ∧
        (t.fileSystem.realsAlong l.toText [] names).Nodup := by
  have hp := isProject h hl
  -- a directory on the way is listed unless it refuses to be
  have hlisted : ∀ part, part <+: names →
      ((∃ entries, t.fileSystem.list (inside l.toText ([] ++ part)) = .ok entries) ↔
        t.kind? (inside l.toText part) = some .directory ∧
          t.realLocation (inside l.toText part) ∉ t.unreadable) := by
    rintro part ⟨rest, rfl⟩
    show (∃ entries, t.list (inside l.toText part) = .ok entries) ↔ _
    rw [hl.inside hn.left]
    exact exists_list_iff h (hl.further hn.left)
  constructor
  · intro hwalked
    refine ⟨FileSystem.reaches_of_list hp hne hn hwalked.file (fun part hpart hproper => ?_)
      hwalked.kept, hwalked.distinct⟩
    exact (hlisted part hpart).2 (hwalked.readable part hpart hproper)
  · rintro ⟨hreaches, hnodup⟩
    refine ⟨?_, fun part hpart hproper => ?_, hnodup, hreaches.not_crosses⟩
    · obtain ⟨part, entries, e, rfl, hlist, he, hkind⟩ := hreaches.exists_listed
      have hlist' : t.list (inside l.toText part) = .ok entries := hlist
      rw [hl.inside hn.left] at hlist'
      rw [hl.inside hn, ← List.append_assoc]
      rw [← List.append_assoc] at hlimit
      rw [← hkind]
      exact kind?_of_listed h (hl.further hn.left) hlist' he (by simp [hkind]) hlimit
    · exact (hlisted part hpart).1 (hreaches.exists_list part hpart hproper)

/-- A well-formed tree lists its entries apart. -/
lemma listsApart (h : t.WellFormed) : t.fileSystem.ListsApart :=
  listsApart_of_segments fun l hl s hs => ((h.proper l hl).names s hs).isSegment

/-- **The walk through a tree in memory**, from any base, with any links.

No file is found twice. Where the base is a directory, the walk comes to an end; what it finds is
the base, continued by names that lead through directories with different real paths; and within the
limit of links that are exactly the names that lead to a file through different directories that can
be listed, past no ignored name. A base that is a file is found itself, and a base that is nothing
yields nothing.

**Proof sketch.** A directory that is listed is registered, so there are no more real paths of them
than directories, and the fuel of a walk is enough for it to come to an end. What it finds is
reached through directories with different real paths. A file that is reached is there unless its
links are too many, and a file that is there is reached if what is above it is listed. -/
theorem walk_exact (h : t.WellFormed) (ignore : IgnoreRules) (root base : Text) :
    (Walk.files t.fileSystem ignore root base).Nodup ∧
      (t.kind? (absolute root base) = some .directory →
        Walk.Runs t.fileSystem ignore [] base (absolute root base)
            (Walk.start t.fileSystem ignore root base) ∧
          (∀ f ∈ Walk.files t.fileSystem ignore root base, ∃ names, names ≠ [] ∧ AreNames names ∧
            f = names.foldl join base ∧
            (t.fileSystem.realsAlong (t.locate (absolute root base)).toText [] names).Nodup) ∧
          ∀ names, names ≠ [] → AreNames names →
            t.WithinLimit ((t.locate (absolute root base)).segments ++ names) →
            (names.foldl join base ∈ Walk.files t.fileSystem ignore root base ↔
              t.IsWalkedTo ignore (t.locate (absolute root base)) names)) ∧
      (t.kind? (absolute root base) ≠ some .directory →
        Walk.files t.fileSystem ignore root base =
          if base ≠ [] ∧ t.kind? (absolute root base) = some .file then [base] else []) := by
  by_cases hdir : t.kind? (absolute root base) = some .directory
  · have hstart := start_of_directory ignore hdir
    have hruns := runs_below h ignore base (absolute root base)
    rw [← hstart] at hruns
    refine ⟨(hruns.nodup_files (listsApart h)).1, fun _ => ⟨hruns, fun f hf => ?_, ?_⟩,
      fun hno => absurd hdir hno⟩
    · obtain ⟨names, hreaches, hnodup, rfl⟩ := (mem_files_iff h hdir f).1 hf
      have hn := hreaches.areNames (isProject h (h.locate_isProper _)) areNames_nil
      exact ⟨names, hreaches.ne_nil, hn, rfl, hnodup⟩
    · intro names hne hn hlimit
      rw [isWalkedTo_iff h (h.locate_isProper _) hne hn hlimit, mem_files_iff h hdir]
      constructor
      · rintro ⟨rel, hreaches, hnodup, heq⟩
        have hrel := hreaches.areNames (isProject h (h.locate_isProper _)) areNames_nil
        obtain rfl := eq_of_foldl_join (fun s hs => (hn s hs).isSegment)
          (fun s hs => (hrel s hs).isSegment) hne hreaches.ne_nil heq
        exact ⟨hreaches, hnodup⟩
      · rintro ⟨hreaches, hnodup⟩
        exact ⟨names, hreaches, hnodup, rfl⟩
  · have hfiles := files_of_not_directory ignore hdir
    refine ⟨?_, fun hyes => absurd hyes hdir, fun _ => hfiles⟩
    rw [hfiles]
    split
    · exact List.nodup_singleton _
    · exact List.nodup_nil

/-- A tree with a link back to its root, a link to itself, a link that leads nowhere, and a
directory under a second name; one directory is ignored, and one refuses to be listed. -/
def circularTree : MemoryTree :=
  .build "/p".toText [.file "a/x".toText [], .file "a/i/y".toText [], .file "l/z".toText [],
    .link "a/up".toText "..".toText, .link "a/gone".toText "missing".toText,
    .link "b".toText "a".toText, .link "c".toText "c".toText, .unreadable "l".toText]

/-- The tree with circular links is well-formed. -/
lemma wellFormed_circularTree : circularTree.WellFormed :=
  wellFormed_build rfl _ (by decide +kernel)

/-- The second name of a directory is walked to, and not the directory inside of itself. -/
theorem walk_exact_circularTree :
    Walk.files circularTree.fileSystem ⟨["i".toText], ⟨[]⟩⟩ "/p".toText [] =
        ["a/x".toText, "b/x".toText] ∧
      circularTree.IsWalkedTo ⟨["i".toText], ⟨[]⟩⟩ circularTree.root ["b".toText, "x".toText] ∧
      ¬ circularTree.IsWalkedTo ⟨["i".toText], ⟨[]⟩⟩ circularTree.root
        ["a".toText, "up".toText, "a".toText, "x".toText] := by
  have hfiles : Walk.files circularTree.fileSystem ⟨["i".toText], ⟨[]⟩⟩ "/p".toText [] =
      ["a/x".toText, "b/x".toText] := by decide +kernel
  have hdir : circularTree.kind? (absolute "/p".toText []) = some .directory := by decide +kernel
  have hroot : circularTree.locate (absolute "/p".toText []) = circularTree.root := by
    decide +kernel
  have hlimit : ∀ names ∈ [["b".toText, "x".toText],
      ["a".toText, "up".toText, "a".toText, "x".toText]],
      (circularTree.arrive? maxLinks (circularTree.root.segments ++ names)).isSome = true := by
    decide +kernel
  obtain ⟨-, hdirectory, -⟩ :=
    walk_exact wellFormed_circularTree ⟨["i".toText], ⟨[]⟩⟩ "/p".toText []
  obtain ⟨-, -, hexact⟩ := hdirectory hdir
  rw [hroot, hfiles] at hexact
  refine ⟨hfiles, ?_, fun hwalked => ?_⟩
  · refine (hexact _ (by simp) (by decide) fun _ _ => hlimit _ (by simp)).1 ?_
    decide
  · have hmem := (hexact _ (by simp) (by decide) fun _ _ => hlimit _ (by simp)).2 hwalked
    exact absurd hmem (by decide)

end MemoryTree

end GlobPreset
