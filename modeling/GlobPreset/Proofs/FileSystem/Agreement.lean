import GlobPreset.Coverage
import GlobPreset.Proofs.FileSystem.Survey
import GlobPreset.Proofs.FileSystem.Unlinked

/-!
# Scans, walks and ignored names agree

A scan gives up on a directory or tells all about it. Where it tells, three readings of a tree in
memory come to the same: the files of the scan, those that a walk from the directory finds, and
those files of the tree that no ignored name hides.

## Main definitions

* `MemoryTree.WithinLimit` — the limit on links does not keep names from being resolved.
* `DirectoryScan.Agrees` — a scan agrees with walks, ignored names and coverage.

## Main results

* `MemoryTree.kind?_of_listed` — a listed entry is what its path leads to.
* `Scanner.exists_names_of_scan?` — only a path of names has a scan.
* `MemoryTree.agrees_of_scan?` — **a scan of a tree in memory agrees**.

## Design

A directory lists an entry by what the entry leads to from there, the links on the way to the
directory not counted. So an entry is what its path leads to unless all these links together are
too many for one resolution; that there are not is asked of the files of the scan alone.
-/

set_option autoImplicit false

namespace GlobPreset

open GlobPreset.Path

/-! ### Real paths -/

namespace MemoryTree

open Location

variable {t : MemoryTree}

/-- What is left of names when links are resolved are names. -/
lemma resolve_areNames {links : Nat} {names : List Text} (hn : AreNames names) :
    AreNames (t.resolve links names) := by
  cases ha : t.arrive? links names with
  | some r => exact (arrive?_eq_some hn ha).2.2.2 ▸ (arrive?_eq_some hn ha).1
  | none =>
    induction links generalizing names with
    | zero =>
      rw [resolve]
      cases hp : t.pass [] names with
      | arrived reached => simp [arrive?, hp] at ha
      | atLink link directory target pending =>
        obtain ⟨-, before, name, rfl, rfl, rfl⟩ := pass_eq_atLink hn hp
        simpa using hn
    | succ links ih =>
      rw [resolve]
      cases hp : t.pass [] names with
      | arrived reached => simp [arrive?, hp] at ha
      | atLink link directory target pending =>
        rw [arrive?, hp] at ha
        exact ih (areNames_after_link hn hp) ha

/-- What is left of a path when every link is resolved are names. -/
lemma areNames_realNames (h : t.Rooted) (path : Text) : AreNames (t.realNames path) := by
  refine resolve_areNames ?_
  have hproper := h.locate_isProper path
  unfold namesOf
  split
  · exact absurd ‹_› hproper.absolute
  · exact hproper.names

/-- Every real path is one of names. -/
lemma exists_realPath (h : t.Rooted) (path : Text) :
    ∃ names, AreNames names ∧ t.fileSystem.realPath path = .of '/' :: ofSegments names :=
  ⟨t.realNames path, areNames_realNames h path, rfl⟩

/-! ### Listed entries -/

variable (t) in
/-- The names are resolved with as many links as a resolution follows, if they are with any
number of them. -/
def WithinLimit (names : List Text) : Prop :=
  ∀ links, (t.arrive? links names).isSome → (t.arrive? maxLinks names).isSome

/-- What a location within the limit of links leads to is found with any number of links. -/
lemma WithinLimit.kind? (h : t.WellFormed) {l : Location} (hl : l.IsProper)
    (hlimit : t.WithinLimit l.segments) {links : Nat} {r : List Text × Nat}
    (hr : t.arrive? links l.segments = some r) :
    t.kind? l.toText = t.kindAt? (Location.below r.1) := by
  obtain ⟨r', hr'⟩ := Option.isSome_iff_exists.1 (hlimit links (by rw [hr]; rfl))
  -- both resolutions arrive, so they arrive at the same with more links
  have hmore := arrive?_add maxLinks hl.names hr
  have hmore' := arrive?_add links hl.names hr'
  rw [Nat.add_comm, hmore] at hmore'
  rw [kind?_toText h hl, hr', Option.bind_some, ← congrArg Prod.fst (Option.some.inj hmore')]

/-- **A listed entry is what its path leads to**, if that is within the limit of links. -/
lemma kind?_of_listed (h : t.WellFormed) {l : Location} (hl : l.IsProper) {entries : List Entry}
    (hlist : t.list l.toText = .ok entries) {e : Entry} (he : e ∈ entries)
    (hkind : e.kind ≠ .other) (hlimit : t.WithinLimit (l.segments ++ [e.name])) :
    t.kind? (⟨l.anchor, l.segments ++ [e.name]⟩ : Location).toText = some e.kind := by
  obtain ⟨real, hreal, hrealNames, -, rfl⟩ := list_eq_ok h hl hlist
  obtain ⟨name, hmem, rfl⟩ := List.mem_map.1 he
  have hregistered := mem_childNames.1 hmem
  have hname : IsName name := (h.proper _ hregistered).names name (by simp)
  have hfull := hreal.append (areNames_singleton hname)
  -- the directory is reached, for nothing is registered behind a link
  obtain ⟨left, harrive⟩ : ∃ left, t.arrive? maxLinks l.segments = some (real, left) := by
    rw [realNames_toText hl] at hrealNames
    cases ha : t.arrive? maxLinks l.segments with
    | some r => exact ⟨r.2, by rw [← hrealNames, (arrive?_eq_some hl.names ha).2.2.2]⟩
    | none =>
      obtain ⟨link, rest, hlink, hres⟩ := arrive?_eq_none hl.names ha
      have hdir := h.parent _ hregistered (by simp [Location.below])
      rw [Location.parent] at hdir
      simp only [Location.below, List.dropLast_concat] at hdir
      have hnone : t.kindAt? (Location.below (link ++ rest)) = none := h.kindAt?_below_link hlink
      rw [← hres, hrealNames] at hnone
      exact absurd ((h.kindAt?_of_directory hdir).symm.trans hnone) (Option.some_ne_none _)
  -- the entry is what its name leads to from there
  have hentry : t.kind? (Location.below (real ++ [name])).toText =
      some (t.entry l (Location.below real) name).kind := by
    have hread : (t.entry l (Location.below real) name).kind =
        (t.kind? (Location.below (real ++ [name])).toText).getD .other := by
      simp only [entry, (isProper_below hreal).joinSegment_toText hname]
      rfl
    rw [hread] at hkind ⊢
    cases hk : t.kind? (Location.below (real ++ [name])).toText with
    | none => exact absurd (by rw [hk]; rfl) hkind
    | some k => rfl
  rw [kind?_toText h (isProper_below hfull)] at hentry
  obtain ⟨r, hr, hk⟩ := Option.bind_eq_some_iff.1 hentry
  have hall : t.arrive? (maxLinks + maxLinks) (l.segments ++ [name]) = some (r.1, r.2 + left) := by
    rw [arrive?_append [name] hl.names, arrive?_add maxLinks hl.names harrive, Option.bind_some,
      Nat.add_comm left]
    exact arrive?_add left hfull hr
  exact (hlimit.kind? h (hl.further (areNames_singleton hname)) hall).trans hk

end MemoryTree

/-! ### Scanned paths -/

/-- **Only a path of names is in place.** -/
lemma Scanner.exists_names_of_not_misplaced {s : Scanner}
    (hreal : ∀ path, ∃ names, AreNames names ∧ s.fs.realPath path = .of '/' :: ofSegments names)
    {directory : Text}
    (h : (if directory.isEmpty then none else s.misplaced? directory) = none) :
    ∃ names, AreNames names ∧ directory = ofSegments names := by
  by_cases hnil : directory = []
  · exact ⟨[], areNames_nil, hnil⟩
  · rw [if_neg (by simpa using hnil)] at h
    have hslash : .of '/' ∈ s.fs.realPath s.root := by
      obtain ⟨names, -, hroot⟩ := hreal s.root
      rw [hroot]
      exact List.mem_cons_self
    have hkey := ((FileSystem.misplaced?_eq_none hslash).1 h).2
    obtain ⟨names, hn, hpath⟩ := hreal (absolute s.root directory)
    rw [hpath] at hkey
    exact ⟨_, isPlain_of_key_eq s.policy hn hnil hkey, (ofSegments_segments _).symm⟩

/-- **Only a path of names has a scan**, slashes around it not counted. -/
lemma Scanner.exists_names_of_scan? {s : Scanner}
    (hreal : ∀ path, ∃ names, AreNames names ∧ s.fs.realPath path = .of '/' :: ofSegments names)
    {directory : Text} {scan : DirectoryScan} (h : s.scan? directory = some scan) :
    ∃ names, AreNames names ∧ Text.dropAround (· == .of '/') directory = ofSegments names :=
  exists_names_of_not_misplaced hreal (visit_spec h).2.1

/-! ### Agreement -/

/-- A scan agrees with walks, with the test of ignored names and with the coverage of a
selection. -/
structure DirectoryScan.Agrees (scan : DirectoryScan) (fs : FileSystem) (project : Text)
    (ignore : IgnoreRules) (c : Coverage) (directory : Text) : Prop where
  /-- It is the scan of the directory. -/
  directory_eq : scan.directory = directory
  /-- The files stand in order, each once. -/
  ordered : scan.files.Pairwise (fun f g => Text.le f g = true ∧ f ≠ g)
  /-- They are the files that a walk from the directory finds. -/
  mem_walk : ∀ f, f ∈ scan.files ↔ f ∈ Walk.files fs ignore project directory
  /-- They are the files below the directory that no ignored name hides. -/
  mem_files : ∀ f, f ∈ scan.files ↔
    ∃ rel, f = join directory rel ∧ fs.HasFile project f ∧ ignore.crosses rel true = false
  /-- The directory is fully selected if there are files, none of which is missing. -/
  fullySelected : scan.fullySelected = true ↔ scan.files ≠ [] ∧ c.missing scan = []
  /-- No extension has two groups. -/
  keys_nodup : (scan.direct.map Prod.fst).Nodup
  /-- The group of an extension are the files directly inside the directory that have it, and an
  extension that some of them have has a group. -/
  direct : ∀ ext group, (ext, group) ∈ scan.direct ↔ group ≠ [] ∧
    group = scan.files.filter (fun f => parent f == directory && extension f == ext)

namespace MemoryTree

variable {t : MemoryTree}

/-- What is reached from a directory are the files below it that no ignored name hides. -/
lemma mem_reached_iff (h : t.WellFormed) {l : Location} (hl : l.IsProper) {policy : CasePolicy}
    {ignore : IgnoreRules} {names : List Text} (hn : AreNames names) {k : Nat}
    (hclear : t.fileSystem.Clear policy ignore l.toText k names) {f : Text}
    (hlimit : ∀ rel, t.fileSystem.Reaches ignore l.toText names rel →
      f = ofSegments (names ++ rel) →
      t.WithinLimit (l.segments ++ segments f)) :
    (∃ rel, t.fileSystem.Reaches ignore l.toText names rel ∧ f = ofSegments (names ++ rel)) ↔
      ∃ rel, f = join (ofSegments names) rel ∧ t.fileSystem.HasFile l.toText f ∧
        ignore.crosses rel true = false := by
  have hp := isProject h hl
  constructor
  · rintro ⟨rel, hrel, rfl⟩
    have hnames := hrel.areNames hp hn
    have hwithin := hlimit rel hrel rfl
    refine ⟨ofSegments rel, (join_ofSegments_append hn hrel.ne_nil).symm, ?_, ?_⟩
    · obtain ⟨part, entries, e, rfl, hlist, he, hkind⟩ := hrel.exists_listed
      have hne : names ++ (part ++ [e.name]) ≠ [] := by simp
      rw [segments_ofSegments hne hnames] at hwithin
      rw [FileSystem.hasFile_ofSegments hne hnames]
      rw [← List.append_assoc] at hnames hwithin ⊢
      rw [hl.inside hnames.left] at hlist
      rw [hl.inside hnames]
      have hk := kind?_of_listed h (hl.further hnames.left) hlist he (by rw [hkind]; simp)
        (by simpa using hwithin)
      rw [hkind, List.append_assoc] at hk
      exact hk
    · rw [ignore.crosses_ofSegments hrel.ne_nil hnames.right, hrel.not_crosses]
  · rintro ⟨rel, rfl, hfile, hkept⟩
    have hrel : IsPlain rel := isPlain_of_join hn hfile.1
    have hne := segments_ne_nil rel
    rw [← ofSegments_segments rel] at hfile hkept
    rw [join_ofSegments_append hn hne,
      FileSystem.hasFile_ofSegments (by simp [hne]) (hn.append hrel)] at hfile
    rw [ignore.crosses_ofSegments hne hrel] at hkept
    refine ⟨segments rel,
      FileSystem.reaches_of_kind? hp hne (hn.append hrel) hclear hfile hkept, ?_⟩
    rw [← join_ofSegments_append hn hne, ofSegments_segments]

/-- **A scan of a tree in memory agrees** with the walk through its directory, with the test of
ignored names on the files of the tree, and with the coverage of the selection it was made for. -/
theorem agrees_of_scan? (h : t.WellFormed) {project : Location} (hproject : project.IsProper)
    (ignore : IgnoreRules) (c : Coverage) {directory : Text} {scan : DirectoryScan}
    (hscan : (⟨t.fileSystem, project.toText, c.selected, ignore, c.policy⟩ : Scanner).scan?
      directory = some scan)
    (hlinks : ∀ f ∈ scan.files, t.WithinLimit (project.segments ++ segments f)) :
    scan.Agrees t.fileSystem project.toText ignore c
      (Text.dropAround (· == .of '/') directory) := by
  obtain ⟨names, hn, hnames⟩ := Scanner.exists_names_of_scan? (exists_realPath h.toRooted) hscan
  have hp := isProject h hproject
  have hvisit := hscan
  rw [Scanner.scan?, Scanner.request, hnames] at hvisit
  have hsurvey := Scanner.surveys_of_visit hp hn hvisit
  obtain ⟨-, -, entries, tally, -, -, htally⟩ := Scanner.visit_spec hvisit
  rw [hnames]
  exact {
    directory_eq := by rw [htally]; rfl
    ordered := by
      refine List.Pairwise.and ?_ hsurvey.nodup
      rw [htally]
      exact Text.sort_pairwise _
    mem_walk := fun f => (hsurvey.mem_walk hp hn f).symm
    mem_files := fun f => (hsurvey.mem_files f).trans <|
      mem_reached_iff h hproject hn hsurvey.clear fun rel hrel hf =>
        hlinks f ((hsurvey.mem_files f).2 ⟨rel, hrel, hf⟩)
    fullySelected := by
      rw [htally]
      simp [Scanner.ofTally, Coverage.missing, Scanner.isSelected, Coverage.isSelected]
    keys_nodup := by
      rw [htally]
      exact nodup_keys_groupPairs _
    direct := fun ext group => hsurvey.direct }

/-- A tree with a link to a file, and a link to a directory that differs from it in case alone. -/
def linkedTree : MemoryTree :=
  .build "/p".toText [.file "s/a.t".toText [], .file "s/i/b".toText [],
    .link "s/l.t".toText "a.t".toText, .link "S".toText "s".toText]

/-- The linked tree is well-formed. -/
lemma wellFormed_linkedTree : linkedTree.WellFormed := wellFormed_build rfl _ (by decide +kernel)

/-- The scan of the linked directory, where case does not count. -/
theorem agrees_of_scan?_linkedTree :
    ∃ scan, (⟨linkedTree.fileSystem, linkedTree.root.toText, ["s/a.t".toText, "s/l.t".toText],
        ⟨["i".toText], ⟨[]⟩⟩, .insensitive⟩ : Scanner).scan? "S/".toText = some scan ∧
      scan.files = ["S/a.t".toText, "S/l.t".toText] ∧
      scan.Agrees linkedTree.fileSystem linkedTree.root.toText ⟨["i".toText], ⟨[]⟩⟩
        ⟨.insensitive, ["s/a.t".toText, "s/l.t".toText]⟩ "S".toText := by
  have hfiles : ((⟨linkedTree.fileSystem, linkedTree.root.toText,
      ["s/a.t".toText, "s/l.t".toText], ⟨["i".toText], ⟨[]⟩⟩, .insensitive⟩ : Scanner).scan?
        "S/".toText).map DirectoryScan.files =
      some ["S/a.t".toText, "S/l.t".toText] := by decide +kernel
  obtain ⟨scan, hscan, hscanned⟩ := Option.map_eq_some_iff.1 hfiles
  have harrive : ∀ f ∈ ["S/a.t".toText, "S/l.t".toText],
      (linkedTree.arrive? maxLinks (linkedTree.root.segments ++ segments f)).isSome = true := by
    decide +kernel
  exact ⟨scan, hscan, hscanned, agrees_of_scan? wellFormed_linkedTree wellFormed_linkedTree.root _
    ⟨.insensitive, ["s/a.t".toText, "s/l.t".toText]⟩ hscan
    fun f hf _ _ => harrive f (hscanned ▸ hf)⟩

end MemoryTree

end GlobPreset
