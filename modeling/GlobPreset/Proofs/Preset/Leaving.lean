import GlobPreset.Proofs.FileSystem.Opening
import GlobPreset.Proofs.Preset.Reads
import GlobPreset.Proofs.Preset.Renew
import GlobPreset.Proofs.Preset.Saved

/-!
# What making and renewing a preset leaves

A request reads as long as it may still be stopped by what it was asked for, and writes one file at
its end. So a request that stops before that leaves every file as it was, and one that succeeds
changes the file of the preset alone. Writing may stop, too: a text with a surrogate has no form in
UTF-8, and this is found out when the file has been opened, so that it is left empty. This holds on
disks with links, on which the path of a preset may lead anywhere: a preset is made only where its
path leads to nothing, and renewed only where it leads to a file.

## Main definitions

* `Preset.MakesFile`, `Preset.RewritesFile` — what writing one file changes.
* `Preset.CreateLeaves`, `Preset.RenewLeaves` — what is true of the disks before and after a
  request, and of its outcome.

## Main results

* `Preset.ends_save_of_store`, `Preset.ends_create_of_store`, `Preset.ends_renew_of_write` — **what
  requests do last** decides how they end.
* `Preset.exists_way_directoryOf` — the way to the directory of presets, as far as it is there.
* `Preset.makesFile_of_write` — **storing a text makes one file**.
* `Preset.stops_create`, `Preset.stops_renew` — **a request that stops** leaves every file as it
  was, or empties its own one.
* `Preset.create_and_renew_leave` — **what making and renewing a preset leaves**.
* `Preset.not_create_and_renew_leave` — a request may leave more than its preset.
-/

set_option autoImplicit false

namespace GlobPreset.Preset

open GlobPreset.Path Location Disk Workflow

variable {s s' : Session} {now : Timestamp} {project name path : Text} {context : Context}

/-! ### Requests that stop -/

/-- A task that reads, whatever may stop it. -/
abbrev OnlyReads {α : Type} (x : Workflow α) : Prop := Reads (fun _ => True) x

/-- Taking a result leaves the disk. -/
lemma onlyReads_take {α : Type} (r : Except Fault α) : OnlyReads (take r) :=
  .take fun _ _ => trivial

/-- Asking for a path leaves the disk. -/
lemma onlyReads_probe (path : Text) : OnlyReads (Workflow.probe path) :=
  .probe (fun _ => trivial) path

/-- Finding out where a preset is leaves the disk. -/
lemma onlyReads_existing : OnlyReads (existing project name) := by
  refine .bind .get fun _ => .bind (onlyReads_take _) fun path => ?_
  refine .bind (onlyReads_probe path) fun kind => ?_
  split
  · exact .throw_bind trivial _
  · exact .pure _

/-- Reading a text leaves the disk. -/
lemma onlyReads_readText : OnlyReads (readText path) :=
  .bind .get fun _ => .bind (onlyReads_take _) fun _ => .pure _

/-- Listing the files of a preset leaves the disk. -/
lemma onlyReads_listFiles : OnlyReads (listFiles path project context) :=
  .bind onlyReads_readText fun _ => .bind .get fun _ => .ofReport fun _ _ => trivial

/-- Sorting out the files among inputs leaves the disk. -/
lemma onlyReads_keepFiles (files : List Text) : OnlyReads (keepFiles project files) :=
  (reads_keepFiles files).mono fun _ _ => trivial

/-- Compiling the files among inputs leaves the disk. -/
lemma onlyReads_compileFiles (level : Level) (files : List Text) :
    OnlyReads (compileFiles project context level files) := by
  unfold compileFiles
  split
  · exact .pure _
  · exact .bind .get fun _ => .bind (.ofReport fun _ _ => trivial) fun _ => .pure _

section Stops

variable {d : Disk} {E : Fault → Disk → Prop} {Q : Disk → Prop} (hE : ∀ e, E e d)
include hE

/-- **Saving a preset** reads, and then stores a text at its path. -/
lemma ends_save_of_store {patterns : List Text} {overwrite : Bool}
    {origin : Option PresetFile.Origin}
    (hstore : ∀ path text, pathOf d project name = .ok path →
      (overwrite = false → d.probe path = .ok none) → Ends d (store path text) E (fun _ => Q)) :
    Ends d (save now project name patterns overwrite origin) E (fun _ => Q) := by
  refine .bind_disk ?_
  cases hpath : pathOf d project name with
  | error e => exact .bind_take_error rfl (hE e)
  | ok path =>
    refine .bind_take rfl ?_
    cases hprobe : d.probe path with
    | error e => exact .bind_probe_error hprobe (hE _)
    | ok kind =>
      refine .bind_probe hprobe ?_
      split
      · exact .throw_bind (hE _) _
      · rename_i hfree
        refine .bind (hstore _ _ hpath fun hkeep => ?_) fun _ _ hQ => .pure hQ
        cases kind with
        | none => exact hprobe
        | some kind => exact absurd (by simp [hkeep]) hfree

/-- **Making a preset** reads, and then stores a text at its path, at which nothing is. -/
lemma ends_create_of_store {inputs : List Text} {level : Text}
    (hstore : ∀ path text, pathOf d project name = .ok path → d.probe path = .ok none →
      Ends d (store path text) E (fun _ => Q)) :
    Ends d (create now project name inputs level context) E (fun _ => Q) := by
  have hkeeps : ∀ e : Fault, True → E e d := fun e _ => hE e
  refine .bind_reads (onlyReads_take _) hkeeps fun level => ?_
  refine .bind_disk ?_
  cases hpath : pathOf d project name with
  | error e => exact .bind_take_error rfl (hE e)
  | ok path =>
    refine .bind_take rfl ?_
    cases hprobe : d.probe path with
    | error e => exact .bind_probe_error hprobe (hE _)
    | ok kind =>
      refine .bind_probe hprobe ?_
      split
      · exact .throw_bind (hE _) _
      rename_i hfree
      obtain rfl : kind = none := Option.not_isSome_iff_eq_none.1 hfree
      dsimp only
      split
      · exact .bind (hstore _ _ hpath hprobe) fun _ _ hQ => .pure hQ
      refine .bind_reads (onlyReads_take _) hkeeps fun _ => ?_
      refine .bind_reads (onlyReads_keepFiles _) hkeeps fun files => ?_
      refine .bind_reads (onlyReads_compileFiles _ _) hkeeps fun result => ?_
      exact ends_save_of_store hE fun path text hpath hfree => hstore path text hpath (hfree rfl)

/-- **Renewing a preset** reads, and then writes a text if that was asked for, into the file that is
at its path. -/
lemma ends_renew_of_write {level : Text} {write : Bool} (hQ : Q d)
    (hwrite : ∀ path text, write = true → pathOf d project name = .ok path →
      d.probe path = .ok (some .file) →
      Ends d (attempt (d.writeText path text)) E (fun _ => Q)) :
    Ends d (renew now project name level write context) E (fun _ => Q) := by
  have hkeeps : ∀ e : Fault, True → E e d := fun e _ => hE e
  have hexisting : Ends d (existing project name) E (fun path d' =>
      (pathOf d project name = .ok path ∧ d.probe path = .ok (some .file)) ∧ d' = d) := by
    refine ⟨fun hs hrun => ?_, fun hs hrun => ?_⟩
    · rw [((onlyReads_existing d).stops hs hrun).2]
      exact hE _
    · obtain ⟨hpath, hprobe, rfl⟩ := existing_run.1 hrun
      rw [hs] at hpath hprobe
      exact ⟨⟨hpath, hprobe⟩, hs⟩
  refine .bind_reads (onlyReads_take _) hkeeps fun level => .bind hexisting ?_
  rintro path _ ⟨⟨hpath, hprobe⟩, rfl⟩
  refine .bind_reads onlyReads_listFiles hkeeps fun files => ?_
  refine .bind_disk (.bind_reads (P := fun _ => True) (.ofReport fun _ _ => trivial) hkeeps
    fun result => ?_)
  refine .bind_reads onlyReads_readText hkeeps fun before => ?_
  split
  · rename_i hasked
    exact .bind (hwrite _ _ hasked hpath hprobe) fun _ _ hQ => .pure hQ
  · exact .pure hQ

end Stops

/-! ### Requests that succeed -/

/-- **Renewing a preset that succeeds** writes the new text, if that was asked for, where the stored
one is. -/
lemma renew_write {level : Text} {write : Bool} {r : Renewal}
    (h : (renew now project name level write context).run s = (.ok r, s')) :
    pathOf s.disk project name = .ok r.path ∧ s.disk.probe r.path = .ok (some .file) ∧
      if write then s.disk.write r.path r.after = .ok s'.disk else s'.disk = s.disk := by
  simp only [renew, Workflow.bind_run, Workflow.take_run, mapError_eq_ok, existing_run,
    listFiles_run, Workflow.disk_run, Workflow.ofReport_run, readText_run] at h
  obtain ⟨l, _, ⟨-, rfl⟩, path, _, ⟨hpath, hprobe, rfl⟩, files, s₁, ⟨content, -, -, rfl⟩, _, _,
    ⟨rfl, rfl⟩, result, s₂, ⟨-, rfl⟩, before, _, ⟨-, rfl⟩, h⟩ := h
  split at h
  · rename_i hwrite
    simp only [Workflow.bind_run, Workflow.attempt_run, writeText_failure_eq_none,
      Workflow.pure_run] at h
    obtain ⟨_, _, ⟨⟨-, hd⟩, rfl⟩, rfl, rfl⟩ := h
    exact ⟨hpath, hprobe, by rw [if_pos hwrite]; exact hd⟩
  · rename_i hwrite
    obtain ⟨rfl, rfl⟩ := Workflow.pure_run.1 h
    exact ⟨hpath, hprobe, by rw [if_neg hwrite]⟩

/-! ### The place of a file -/

/-- A path that leads to a directory has a way of its segments that count. -/
lemma exists_way_plainNames {d : Disk} (h : d.WellFormed) (hkind : d.kind? path = some .directory) :
    ∃ links ≤ maxLinks, ∃ n, Way d links [] (plainNames path) n := by
  obtain ⟨-, n, node, hfind, hnode⟩ := kind?_eq_some.1 hkind
  obtain rfl : node = .directory := by
    cases node with
    | directory => rfl
    | file content => cases hnode
    | link target => cases hnode
    | special => cases hnode
  obtain ⟨links, hlinks, hway⟩ := exists_way_of_find h hfind
  rw [← Way.filter_iff fun s => counts_eq_false, ← plainNames_eq] at hway
  exact ⟨links, hlinks, n, hway⟩

/-- **The way to the directory of presets** is there as far as the project, or as far as a folder;
the names behind that may be missing. -/
theorem exists_way_directoryOf {d : Disk} (h : d.WellFormed)
    (hproject : d.kind? (plainPath project) = some .directory) {directory : Text}
    (hdirectory : directoryOf d project = .ok directory) :
    ∃ base more links n, plainNames directory = base ++ more ∧ AreNames more ∧ more ≠ [] ∧
      links ≤ maxLinks ∧ Way d links [] base n := by
  obtain ⟨found, hfound, hdirectory⟩ := bind_eq_ok.1 hdirectory
  cases found with
  | some folder =>
    cases hdirectory
    obtain ⟨real, -, hfolder⟩ := bind_eq_ok.1 hfound
    obtain ⟨home, hnear, rfl⟩ := folderAbove_eq_some.1 hfolder
    obtain ⟨kind, hprobe, hkind⟩ := map_eq_ok.1 hnear.here
    obtain rfl : kind = some .directory := by simpa using hkind
    obtain ⟨links, hlinks, n, hway⟩ := exists_way_plainNames h (probe_eq_some.1 hprobe)
    exact ⟨_, _, links, n, plainNames_within areNames_subfolderName (by simp) _,
      areNames_subfolderName, by simp, hlinks, hway⟩
  | none =>
    cases hdirectory
    obtain ⟨links, hlinks, n, hway⟩ := exists_way_plainNames h hproject
    rw [plainNames_plainPath] at hway
    have hboth : AreNames [folderName, subfolderName] :=
      areNames_folderName.append areNames_subfolderName
    exact ⟨_, _, links, n, plainNames_within hboth (by simp) _, hboth, by simp, hlinks, hway⟩

/-- A file was made: where nothing was, the content stands, and the path leads to it. Nothing else
was changed but that directories may have been made that lead to it. -/
def MakesFile (before after : Disk) (path content : Text) : Prop :=
  ∃ place, before.at? place = none ∧ after.find path = .ok (place, .file content) ∧
    ∀ n, n ≠ place → after.at? n = before.at? n ∨
      before.at? n = none ∧ n <+: place ∧ after.at? n = some .directory

/-- A file was written: the path leads to it as before, the content stands in it, and nothing else
was changed. -/
def RewritesFile (before after : Disk) (path content : Text) : Prop :=
  ∃ place text, before.find path = .ok (place, .file text) ∧
    after.find path = .ok (place, .file content) ∧ ∀ n, n ≠ place → after.at? n = before.at? n

/-- **Storing a text makes one file.** Where the path of a preset leads to nothing, there is a place
for its file.

**Proof sketch.** The directory of presets was there, and nothing is made but the file; or it is
new, and the file is the first entry in it. -/
theorem makesFile_of_write {d d' : Disk} {content : Text} (h : d.WellFormed)
    (hproject : d.kind? (plainPath project) = some .directory)
    (hpath : pathOf d project name = .ok path) (hprobe : d.probe path = .ok none)
    (hmade : (d.makeDirectories (Path.parent path)).failure = none)
    (hwrite : (d.makeDirectories (Path.parent path)).disk.write path content = .ok d') :
    MakesFile d d' path content := by
  unfold pathOf at hpath
  split at hpath
  · cases hpath
  rename_i hname
  have hfile : IsName (name ++ suffix) := isName_append_suffix (by simpa using hname)
  rw [mapError_eq_ok, map_eq_ok] at hpath
  obtain ⟨directory, hdirectory, rfl⟩ := hpath
  obtain ⟨base, more, links, n₀, hnames, hmore, hne, hlinks, hway⟩ :=
    exists_way_directoryOf h hproject hdirectory
  have hsome : plainNames directory ≠ [] := by
    rw [hnames]
    simp [hne]
  obtain ⟨empties, hempties, hsegs, hparent⟩ := segments_file hfile hsome
  have hbase : ∀ s ∈ base, .of '/' ∉ s := fun s hs =>
    (counts_of_mem_plainNames directory s (hnames ▸ List.mem_append_left _ hs)).1
  have hkeeps := keepsFiles_makeDirectories d (Path.parent (within directory [name ++ suffix]))
  unfold makeDirectories at hmade hwrite hkeeps
  split at hmade
  · cases hmade
  rename_i hrefused
  rw [if_neg hrefused] at hwrite hkeeps
  rw [hparent, hnames] at hmade hwrite hkeeps
  obtain ⟨n, hopened⟩ := opened_of_makeLineage h hbase hway hlinks hmore hne hmade
  generalize (d.makeLineage (base ++ more).reverse).disk = d₁ at hwrite hkeeps hopened
  rcases hopened.isNew with rfl | hnew
  · obtain ⟨place, -, hat, rfl, hfind⟩ :=
      exists_place_of_write h (find_of_probe (isRefused_of_write hwrite) hprobe) hwrite
    exact ⟨place, hat, hfind, fun m hm => .inl (at?_put_of_ne hm _)⟩
  · obtain ⟨links₁, hlinks₁, hway₁⟩ := hopened.way
    have hreach : Way d₁ links₁ [] (empties ++ plainNames directory) n := by
      rwa [Way.append_iff hempties, hnames, ← Way.nil_cons_iff]
    have hfree : d₁.at? (n ++ [name ++ suffix]) = none := by
      rw [hopened.made.at?_eq, if_neg (not_concat_isPrefix n _), h.at?_append_eq_none hnew]
    obtain ⟨-, rfl, hfind⟩ := put_of_write_of_way hopened.made.wellFormed hsegs hfile.isStep hreach
      hlinks₁ hfree hwrite
    refine ⟨_, hkeeps.at?_eq_none hfree, hfind, fun m hm => ?_⟩
    rw [at?_put_of_ne hm, hopened.made.at?_eq]
    split
    · rename_i hlead
      rcases hkeeps m with hsame | ⟨hnone, -⟩
      · rw [hopened.made.at?_eq, if_pos hlead] at hsame
        exact .inl hsame
      · exact .inr ⟨hnone, hlead.trans (List.prefix_append _ _), rfl⟩
    · exact .inl rfl

/-- **Writing to the file of a preset** changes nothing but that file. -/
lemma rewritesFile_of_write {d d' : Disk} {content : Text} (h : d.WellFormed)
    (hprobe : d.probe path = .ok (some .file)) (hwrite : d.write path content = .ok d') :
    RewritesFile d d' path content := by
  obtain ⟨place, text, hfind⟩ := exists_file_of_kind? (probe_eq_some.1 hprobe)
  refine ⟨place, text, hfind, find_of_write h hfind hwrite, fun n hn => ?_⟩
  obtain ⟨-, -, -, hput⟩ := write_of_find hfind hwrite
  rw [hput, at?_put_of_ne hn]

/-! ### What requests leave -/

/-- What making a preset leaves. If it stops, every entry is kept, and what is new are directories;
but the file of the preset is there and empty if it stopped at a surrogate that its text was found
to hold. If it succeeds, that file was made with a text. -/
def CreateLeaves (project name : Text) (before : Disk) (outcome : Except Fault Text)
    (after : Disk) : Prop :=
  match outcome with
  | .error e =>
    before.KeepsFiles after ∨
      e.isUnencodable = true ∧ ∃ path, pathOf before project name = .ok path ∧
        MakesFile before after path []
  | .ok path => pathOf before project name = .ok path ∧ ∃ text, MakesFile before after path text

/-- What renewing a preset leaves. If it stops, or nothing is to be written, that is the disk as it
was; but the file of the preset is empty if writing stopped at a surrogate. Otherwise the new text
is in that file. -/
def RenewLeaves (project name : Text) (write : Bool) (before : Disk)
    (outcome : Except Fault Renewal)
    (after : Disk) : Prop :=
  match outcome with
  | .error e =>
    after = before ∨
      e.isUnencodable = true ∧ write = true ∧ ∃ path, pathOf before project name = .ok path ∧
        RewritesFile before after path []
  | .ok r =>
    if write then pathOf before project name = .ok r.path ∧ RewritesFile before after r.path r.after
    else after = before

section Leaves

variable {d : Disk} (h : d.WellFormed)
include h

/-- **Storing a text that stops** leaves every file, or an empty one if it stopped at a surrogate.
-/
lemma stops_store {text : Text} (hproject : d.kind? (plainPath project) = some .directory)
    (hpath : pathOf d project name = .ok path) (hprobe : d.probe path = .ok none) :
    Ends d (store path text) (fun e => CreateLeaves project name d (.error e))
      (fun _ _ => True) where
  stops hs hrun := by
    subst hs
    rcases store_run_error hrun with hdisk | ⟨⟨error, rfl⟩, hmade, hwrite⟩
    · rw [hdisk]
      exact .inl (keepsFiles_makeDirectories _ _)
    · exact .inr ⟨rfl, path, hpath, makesFile_of_write h hproject hpath hprobe hmade hwrite⟩
  succeeds _ _ := trivial

/-- **Making a preset that stops** leaves every file, or an empty one if it stopped at a surrogate.
-/
theorem stops_create {inputs : List Text} {level : Text}
    (hproject : d.kind? (plainPath project) = some .directory) :
    Ends d (create now project name inputs level context)
      (fun e => CreateLeaves project name d (.error e)) (fun _ _ => True) :=
  ends_create_of_store (fun _ => .inl (.refl d)) fun _ _ hpath hprobe =>
    stops_store h hproject hpath hprobe

/-- **Renewing a preset that stops** leaves the disk, or empties the file of the preset if it
stopped at a surrogate. -/
theorem stops_renew {level : Text} {write : Bool} :
    Ends d (renew now project name level write context)
      (fun e => RenewLeaves project name write d (.error e)) (fun _ _ => True) := by
  refine ends_renew_of_write (fun _ => .inl rfl) trivial fun path text hasked hpath hprobe =>
    ⟨fun hs hrun => ?_, fun _ _ => trivial⟩
  obtain ⟨f, hfailure, rfl, rfl⟩ := attempt_run_error.1 hrun
  rcases writeText_of_failure hfailure with hdisk | ⟨⟨error, rfl⟩, hwrite⟩
  · exact .inl hdisk
  · exact .inr ⟨rfl, hasked, path, hpath, rewritesFile_of_write h hprobe hwrite⟩

end Leaves

/-- **What making and renewing a preset leaves**, in a project that is there. -/
theorem create_and_renew_leave (h : s.disk.WellFormed)
    (hproject : s.disk.kind? (plainPath project) = some .directory) (inputs : List Text)
    (level : Text) (write : Bool) :
    (∀ outcome s', (create now project name inputs level context).run s = (outcome, s') →
      CreateLeaves project name s.disk outcome s'.disk) ∧
    ∀ outcome s', (renew now project name level write context).run s = (outcome, s') →
      RenewLeaves project name write s.disk outcome s'.disk := by
  constructor
  · intro outcome s' hrun
    cases outcome with
    | error e => exact (stops_create h hproject).stops rfl hrun
    | ok path =>
      obtain ⟨hpath, hprobe, text, s₁, -, hdisk, hstore⟩ := create_run hrun
      obtain ⟨hmade, -, d', hwrite, rfl⟩ := store_run.1 hstore
      rw [hdisk] at hmade hwrite
      exact ⟨hpath, text, makesFile_of_write h hproject hpath hprobe hmade hwrite⟩
  · intro outcome s' hrun
    cases outcome with
    | error e => exact (stops_renew h).stops rfl hrun
    | ok r =>
      obtain ⟨hpath, hprobe, hwritten⟩ := renew_write hrun
      rw [RenewLeaves]
      split
      · rename_i hwrite
        rw [if_pos hwrite] at hwritten
        exact ⟨hpath, rewritesFile_of_write h hprobe hwritten⟩
      · rename_i hwrite
        rwa [if_neg hwrite] at hwritten

/-- A project with a file, and a link to the project. -/
def linkedDisk : Disk where
  nodes := [(["p".toText], .directory), (["p".toText, "a".toText], .file []),
    (["l".toText], .link "p".toText)]
  limits := some .standard

/-- The session after a preset was made through the link. -/
def linkedSession : Session :=
  ((create ⟨2024, 1, 1, 0, 0, 0, none⟩ "/l".toText "q".toText ["a".toText] "minimal".toText
    .standard).run ⟨linkedDisk, []⟩).2

/-- A preset that is made through the link is renewed there. -/
theorem create_and_renew_leave_linkedDisk :
    CreateLeaves "/l".toText "q".toText linkedDisk (.ok "/l/.presetc/presets/q.patterns".toText)
        linkedSession.disk ∧
      ∃ r s', (renew ⟨2025, 1, 1, 0, 0, 0, none⟩ "/l".toText "q".toText "minimal".toText true
          .standard).run linkedSession = (.ok r, s') ∧
        RenewLeaves "/l".toText "q".toText true linkedSession.disk (.ok r) s'.disk := by
  have hcreate : ((create ⟨2024, 1, 1, 0, 0, 0, none⟩ "/l".toText "q".toText ["a".toText]
      "minimal".toText .standard).run ⟨linkedDisk, []⟩).1 =
        .ok "/l/.presetc/presets/q.patterns".toText := by
    decide +kernel
  have hrenew : ((renew ⟨2025, 1, 1, 0, 0, 0, none⟩ "/l".toText "q".toText "minimal".toText true
      .standard).run linkedSession).1.toBool = true := by
    decide +kernel
  refine ⟨(create_and_renew_leave (by decide) (by decide) ["a".toText] "minimal".toText true).1 _ _
    (Prod.ext hcreate rfl), ?_⟩
  cases hrun : (renew ⟨2025, 1, 1, 0, 0, 0, none⟩ "/l".toText "q".toText "minimal".toText true
      .standard).run linkedSession with
  | mk outcome s' =>
    cases outcome with
    | error e =>
      rw [hrun] at hrenew
      cases hrenew
    | ok r =>
      exact ⟨r, s', rfl, (create_and_renew_leave (by decide +kernel) (by decide +kernel) []
        "minimal".toText true).2 _ _ hrun⟩

/-- A project with a preset that selects everything, a file whose name is a byte that is not UTF-8,
and another preset that is a link to a file of the project. -/
def strangeDisk : Disk where
  nodes := [(["p".toText], .directory), (["p".toText, [Text.strayByte]], .file []),
    (["p".toText, "t".toText], .file "t".toText), (["p".toText, folderName], .directory),
    (shelfOf ["p".toText], .directory),
    (shelfOf ["p".toText] ++ ["q.patterns".toText], .file "*".toText),
    (shelfOf ["p".toText] ++ ["l.patterns".toText], .link "../../t".toText)]
  limits := some .standard

/-- **A request may leave more than its preset.** A preset cannot be written for a glob with a
surrogate, and yet it is there; another one is empty after it could not be renewed; and renewing one
behind a link changes a file of the project. -/
theorem not_create_and_renew_leave :
    let made := (create ⟨2024, 1, 1, 0, 0, 0, none⟩ "/p".toText "r".toText
      [Text.strayByte :: "*.ts".toText] "minimal".toText .standard).run ⟨strangeDisk, []⟩
    let renewed := fun name => (renew ⟨2024, 1, 1, 0, 0, 0, none⟩ "/p".toText name "minimal".toText
      true .standard).run ⟨strangeDisk, []⟩
    (made.1.toBool = false ∧
      strangeDisk.probe "/p/.presetc/presets/r.patterns".toText = .ok none ∧
      made.2.disk.read "/p/.presetc/presets/r.patterns".toText = .ok []) ∧
    ((renewed "q".toText).1.toBool = false ∧
      strangeDisk.read "/p/.presetc/presets/q.patterns".toText = .ok "*".toText ∧
      (renewed "q".toText).2.disk.read "/p/.presetc/presets/q.patterns".toText = .ok []) ∧
    (renewed "l".toText).1.toBool = true ∧
      (renewed "l".toText).2.disk.read "/p/t".toText ≠ strangeDisk.read "/p/t".toText := by
  decide +kernel

end GlobPreset.Preset
