import GlobPreset.Preset.Workflow
import GlobPreset.Proofs.Compile.RoundTrip
import GlobPreset.Proofs.Expansion.Confinement
import GlobPreset.Proofs.FileSystem.Content
import GlobPreset.Proofs.Preset.Create
import GlobPreset.Proofs.Preset.Paths

/-!
# What renewing a preset does

A preset is renewed by expanding it and compiling what it gives. The new text gives the same files
as the stored one did, and renewing it once more changes nothing: writing it leaves the same
entries, its header is comments alone, and its patterns select the files that were compiled.

## Main definitions

* `Preset.renewedText` — the text of a renewed preset.
* `Preset.IsStorable` — a compilation that is read from a file as it was written.
* `Preset.Renewal.IsSettled` — the stored text gives the files that it was made from, and renewing
  it again changes neither its patterns nor its files.

## Main results

* `Preset.renew_run`, `Preset.exists_renew` — what a request that succeeds did, and when it does.
* `Preset.isSelection_of_outcome` — ordinary files of an expansion are files of the project, unless
  the system does not take their paths.
* `Preset.parse_renewedText` — a renewed preset is read as its patterns.
* `Preset.renew_idempotent` — **a renewed preset is settled**.
* `Preset.not_renew_idempotent` — a file whose path the system does not take gets lost.

## Design

A walk may find a file by going down one directory after another although the path of the file as a
whole is too long for the system. A pattern that spells this path finds nothing.
-/

set_option autoImplicit false

namespace GlobPreset.Preset

open GlobPreset.Path Location PatternList

variable {s s' : Session} {project name path : Text} {context : Context}

/-! ### The steps of a request -/

/-- What the header of a renewed preset tells. -/
def renewedOrigin (name : Text) (result : Compilation) : PresetFile.Origin where
  source := "preset:".toText ++ name
  preserved := 0
  converted := 0
  summary := some (.of result)

/-- The text of a renewed preset. -/
def renewedText (now : Timestamp) (name : Text) (result : Compilation) : Text :=
  PresetFile.render name result.patterns (some (renewedOrigin name result)) now

/-- Whether the text of a renewed preset has surrogates does not depend on the moment. -/
lemma isEncodable_renewedText {now : Timestamp} {c : Compilation} (now' : Timestamp)
    (h : (renewedText now name c).IsEncodable) : (renewedText now' name c).IsEncodable :=
  PresetFile.isEncodable_render.2 (PresetFile.isEncodable_render.1 h)

/-- Listing the files of a stored text is expanding it. -/
lemma listFiles_run {files : List Text} :
    (listFiles path project context).run s = (.ok files, s') ↔
      ∃ content, s.disk.read (plainPath path) = .ok content ∧
        Expand.outcome s.disk.fileSystem project context (parse (Text.unifyNewlines content)) =
          .ok files ∧
        s' = { s with warnings := s.warnings ++
          (expandText s.disk.fileSystem project context
            (Text.unifyNewlines content)).warnings } := by
  simp only [listFiles, Workflow.bind_run, readText_run, Workflow.disk_run, Workflow.ofReport_run]
  constructor
  · rintro ⟨text, _, ⟨⟨content, hread, rfl⟩, rfl⟩, _, _, ⟨rfl, rfl⟩, hfiles, hs⟩
    exact ⟨content, hread, hfiles, hs⟩
  · rintro ⟨content, hread, hfiles, hs⟩
    exact ⟨_, _, ⟨⟨content, hread, rfl⟩, rfl⟩, _, _, ⟨rfl, rfl⟩, hfiles, hs⟩

/-- **What renewing a preset does**: the stored text is expanded, its files are compiled, and the
new text is written if that was asked for. -/
theorem renew_run {now : Timestamp} {level : Text} {write : Bool} {r : Renewal}
    (h : (renew now project name level write context).run s = (.ok r, s')) :
    ∃ l content, Level.parse level = .ok l ∧ pathOf s.disk project name = .ok r.path ∧
      s.disk.probe r.path = .ok (some .file) ∧ s.disk.read (plainPath r.path) = .ok content ∧
      Expand.outcome s.disk.fileSystem project context (parse (Text.unifyNewlines content)) =
        .ok r.inputFiles ∧
      Compile.outcome s.disk.fileSystem project context l r.inputFiles = .ok r.result ∧
      (write = true → (renewedText now name r.result).IsEncodable ∧
        s.disk.write r.path (renewedText now name r.result) = .ok s'.disk) := by
  simp only [renew, Workflow.bind_run, Workflow.take_run, mapError_eq_ok, existing_run,
    listFiles_run, Workflow.disk_run, Workflow.ofReport_run, readText_run] at h
  obtain ⟨l, _, ⟨hlevel, rfl⟩, path, _, ⟨hpath, hprobe, rfl⟩, files, s₁,
    ⟨content, hread, hexpand, rfl⟩, _, _, ⟨rfl, rfl⟩, result, s₂, ⟨hcompile, rfl⟩, before, _,
    ⟨⟨_, -, rfl⟩, rfl⟩, h⟩ := h
  split at h
  · simp only [Workflow.bind_run, Workflow.attempt_run, Disk.writeText_failure_eq_none,
      Workflow.pure_run] at h
    obtain ⟨_, _, ⟨hwrite, rfl⟩, rfl, rfl⟩ := h
    exact ⟨l, content, hlevel, hpath, hprobe, hread, hexpand, hcompile, fun _ => hwrite⟩
  · rename_i hwrite
    obtain ⟨rfl, rfl⟩ := Workflow.pure_run.1 h
    exact ⟨l, content, hlevel, hpath, hprobe, hread, hexpand, hcompile,
      fun htrue => absurd htrue hwrite⟩

/-- **When renewing a preset succeeds**, and what it gives. -/
theorem exists_renew {level : Text} {l : Level} {content : Text} {files : List Text}
    {c : Compilation} (hlevel : Level.parse level = .ok l)
    (hpath : pathOf s.disk project name = .ok path)
    (hprobe : s.disk.probe path = .ok (some .file)) (hplain : plainPath path = path)
    (hread : s.disk.read path = .ok content)
    (hexpand : Expand.outcome s.disk.fileSystem project context
      (parse (Text.unifyNewlines content)) = .ok files)
    (hcompile : Compile.outcome s.disk.fileSystem project context l files = .ok c)
    (hwrite : ∀ text, ∃ d, s.disk.write path text = .ok d) (now : Timestamp) (write : Bool)
    (htext : write = true → (renewedText now name c).IsEncodable) :
    ∃ r s', (renew now project name level write context).run s = (.ok r, s') ∧
      r.result = c ∧ r.inputFiles = files := by
  refine Workflow.exists_bind_run (Workflow.take_run.2 ⟨mapError_eq_ok.2 hlevel, rfl⟩) ?_
  refine Workflow.exists_bind_run (existing_run.2 ⟨hpath, hprobe, rfl⟩) ?_
  refine Workflow.exists_bind_run (listFiles_run.2 ⟨content, hplain.symm ▸ hread, hexpand, rfl⟩) ?_
  refine Workflow.exists_bind_run (Workflow.disk_run.2 ⟨rfl, rfl⟩) ?_
  refine Workflow.exists_bind_run (Workflow.ofReport_run.2 ⟨hcompile, rfl⟩) ?_
  refine Workflow.exists_bind_run (readText_run.2 ⟨⟨content, hread, rfl⟩, rfl⟩) ?_
  by_cases hw : write = true
  · obtain ⟨d, hd⟩ := hwrite (renewedText now name c)
    have hwritten : (s.disk.writeText path (renewedText now name c)).failure = none := by
      rw [Disk.writeText_of_isEncodable (htext hw), hd]
    rw [if_pos hw]
    refine Workflow.exists_bind_run ((Workflow.attempt_run (u := ())).2 ⟨hwritten, rfl⟩) ?_
    exact ⟨_, _, Workflow.pure_run.2 ⟨rfl, rfl⟩, rfl, rfl⟩
  · rw [if_neg hw]
    exact ⟨_, _, Workflow.pure_run.2 ⟨rfl, rfl⟩, rfl, rfl⟩

/-! ### The place of a preset -/

section Place

variable {d d' : Disk} (h : d.SameEntries d') (hd : d.WellFormed)
include h hd

/-- A folder is found as before. -/
lemma folderAbove_eq (names : List Text) : folderAbove d' names = folderAbove d names := by
  induction names with
  | nil => simp only [folderAbove, h.probe_eq hd]
  | cons last above ih => simp only [folderAbove, h.probe_eq hd, ih]

/-- **Where a preset is kept** does not depend on what stands in files. -/
theorem pathOf_eq (project name : Text) : pathOf d' project name = pathOf d project name := by
  simp only [pathOf, directoryOf, findFolder, h.resolve_eq hd, folderAbove_eq h hd]

end Place

/-! ### Files of an expansion -/

/-- **Ordinary files of an expansion are files of the project**, if the system takes their paths. -/
theorem isSelection_of_outcome {d : Disk} (hd : d.WellFormed) {l : Location} (hl : l.IsProper)
    {list : PatternList} {files : List Text}
    (h : Expand.outcome d.fileSystem l.toText context list = .ok files)
    (hfiles : ∀ f ∈ files, IsOrdinary f ∧ d.Takes (absolute l.toText f)) :
    d.fileSystem.IsSelection l.toText files := by
  intro f hf
  obtain ⟨hord, htakes⟩ := hfiles f hf
  refine ⟨hord, hord.isPlain, ?_⟩
  obtain ⟨ignore, -, g, -, hwalk⟩ := Expand.exists_walk_of_outcome h hf
  rw [absolute_of_isPlain hord.isPlain] at htakes ⊢
  rw [FileSystem.isFile, beq_iff_eq]
  rcases Walk.exists_listed_of_mem_files (Disk.isProject hd hl) (Disk.lists_isName hd) hord.isPlain
    hwalk with hfile | ⟨names, entries, e, hsegs, hlist, he, hkind⟩
  · exact hfile
  have hn : AreNames (names ++ [e.name]) := hsegs ▸ hord.isPlain
  rw [hsegs, inside_concat, hl.inside hn.left] at htakes ⊢
  rw [hl.inside hn.left] at hlist
  rw [← hkind]
  exact Disk.kind?_of_listed hd (hl.further hn.left) hlist he (by simp [hkind]) htakes

/-- A compilation that is read from a file as it was written: its patterns are lines, there is one
that includes something unless there are none, and its records are one line each. -/
structure IsStorable (c : Compilation) : Prop where
  /-- A pattern is a line. -/
  lines : ∀ p ∈ c.patterns, IsStoredLine p
  /-- Something is included, unless there are no patterns. -/
  includes : c.patterns = [] ∨ (ofRaw c.patterns).includes ≠ []
  /-- A record is one line. -/
  records : ∀ a ∈ c.applied, a.IsOneLine

/-- **What the files of an expansion compile to** can be stored, and expands to these files. -/
theorem expand_of_outcome {fs : FileSystem} (hp : fs.IsProject project)
    (hord : fs.HasOrdinaryFiles project) (hpolicy : context.policy = .sensitive)
    {list : PatternList} {files : List Text} {level : Level} {c : Compilation}
    (hexpand : Expand.outcome fs project context list = .ok files)
    (hsel : fs.IsSelection project files)
    (hcompile : Compile.outcome fs project context level files = .ok c) :
    IsStorable c ∧ Expand.outcome fs project context (ofRaw c.patterns) = .ok files := by
  by_cases hne : files = []
  · subst hne
    rw [Compile.outcome, Compile.pathsOf_eq_ok hpolicy hsel] at hcompile
    cases hcompile
    exact ⟨⟨by simp [Compilation.empty], .inl rfl, by simp [Compilation.empty]⟩, rfl⟩
  obtain ⟨f, hf⟩ := List.exists_mem_of_ne_nil _ hne
  obtain ⟨ignore, hignore, -⟩ := Expand.exists_walk_of_outcome hexpand hf
  have hresolves := refusal?_of_outcome hpolicy hignore hne hsel hcompile
  obtain ⟨c', hc', hlines, hreadable, hselects, hrecords⟩ :=
    Compile.outcome_spec hp hord hresolves (hpolicy ▸ FileSystem.isToldApart_sensitive) hignore hsel
      hne level
  obtain rfl : c' = c := Except.ok.inj (hc'.symm.trans hcompile)
  obtain ⟨⟨p, hp, -⟩, -⟩ := (hselects f).2 hf
  obtain ⟨hsorted, hnodup⟩ := Expand.ordered_of_outcome hexpand
  refine ⟨⟨hlines, .inr (List.ne_nil_of_mem hp), hrecords⟩, ?_⟩
  rw [Expand.outcome_eq_sort hignore hreadable hselects, dedupe_eq_self hnodup,
    Text.sort_eq_self hsorted]

/-! ### Reading a renewed preset -/

/-- A text without carriage returns has line feeds at the ends of lines. -/
lemma unifyNewlines_eq_self {text : Text} (h : .of '\r' ∉ text) :
    Text.unifyNewlines text = text := by
  induction text with
  | nil => rfl
  | cons c rest ih =>
    obtain ⟨hc, hrest⟩ := List.ne_and_not_mem_of_not_mem_cons h
    rw [Text.unifyNewlines, ih hrest, if_neg hc.symm]
    exact fun _ hreturn => absurd hreturn hc.symm

/-- What the header of a renewed preset tells are lines. -/
lemma isOneLine_renewedOrigin (hname : name.any Text.isLineBoundary = false) {c : Compilation}
    (h : ∀ a ∈ c.applied, a.IsOneLine) : (renewedOrigin name c).IsOneLine := by
  have hsource : ("preset:".toText ++ name).any Text.isLineBoundary = false := by
    rw [List.any_append, hname]
    decide
  refine ⟨hsource, fun summary hsummary => ?_⟩
  obtain rfl := Option.mem_some_iff.1 hsummary
  exact isOneLine_summary h

/-- **A renewed preset is read as its patterns.** -/
theorem parse_renewedText (hname : name.any Text.isLineBoundary = false) {c : Compilation}
    (hc : IsStorable c) (now : Timestamp) :
    parse (Text.unifyNewlines (renewedText now name c)) = ofRaw c.patterns := by
  have horigin : ∀ o ∈ some (renewedOrigin name c), o.IsOneLine := by
    rintro o ⟨⟩
    exact isOneLine_renewedOrigin hname hc.records
  have hpatterns : ∀ p ∈ c.patterns, p.any Text.isLineBoundary = false := fun p hp =>
    (hc.lines p hp).noBoundary
  rw [renewedText,
    unifyNewlines_eq_self (PresetFile.return_not_mem_render hname horigin hpatterns),
    PresetFile.parse_render hname horigin hpatterns, ofEntries_readLine? hc.lines hc.includes]

/-! ### Renewing twice -/

section Written

variable {l : Location} {now : Timestamp} {level : Text} {r : Renewal} (hd : s.disk.WellFormed)
  (h : (renew now l.toText name level true context).run s = (.ok r, s'))
include h

/-- The path of a renewed preset is spelled plainly. -/
lemma plainPath_of_renew (hl : l.IsProper) : plainPath r.path = r.path := by
  obtain ⟨-, -, -, hpath, -⟩ := renew_run h
  obtain ⟨place, hplace, heq⟩ := pathOf_isProper hl hpath
  rw [heq, plainPath_toText hplace]

include hd

/-- What stands at the place of a renewed preset, among the same entries as before. -/
lemma written_of_renew :
    s.disk.SameEntries s'.disk ∧ s'.disk.read r.path = .ok (renewedText now name r.result) := by
  obtain ⟨-, -, -, -, hprobe, -, -, -, hwrite⟩ := renew_run h
  obtain ⟨htext, hwrite⟩ := hwrite rfl
  exact Disk.sameEntries_of_write hd (Disk.probe_eq_some.1 hprobe) htext hwrite

/-- **The files of a renewed preset** are what its patterns expanded to before they were written. -/
lemma listFiles_of_renew (hl : l.IsProper) (hname : name.any Text.isLineBoundary = false)
    (hresult : IsStorable r.result) {files : List Text} :
    (∃ s'', (listFiles r.path l.toText context).run s' = (.ok files, s'')) ↔
      Expand.outcome s.disk.fileSystem l.toText context (ofRaw r.result.patterns) = .ok files := by
  obtain ⟨hsame, hread⟩ := written_of_renew hd h
  rw [← (hsame.sameAnswers hd).expand_eq, ← parse_renewedText hname hresult now]
  simp only [listFiles_run, plainPath_of_renew h hl]
  constructor
  · rintro ⟨_, content, hcontent, hexpand, -⟩
    obtain rfl := Except.ok.inj (hread.symm.trans hcontent)
    exact hexpand
  · exact fun hexpand => ⟨_, _, hread, hexpand, rfl⟩

end Written

/-- A renewed preset is settled: its text expands to the files that it was made from, and renewing
it again, at whatever moment, compiles the same patterns from the same files. -/
structure Renewal.IsSettled (r : Renewal) (s : Session) (project name level : Text)
    (context : Context) : Prop where
  /-- Its text expands to its files. -/
  files : ∃ s', (listFiles r.path project context).run s = (.ok r.inputFiles, s')
  /-- Renewing it again gives the same. -/
  again : ∀ now write, ∃ r' s', (renew now project name level write context).run s = (.ok r', s') ∧
    r'.result = r.result ∧ r'.inputFiles = r.inputFiles

/-- **Renewing keeps the files of a preset, and twice is as good as once.** In a project of ordinary
files, a renewed preset is settled if its files are ordinary and the system takes their paths.

**Proof sketch.** The files of the expansion are a selection of the project, so what they compile to
expands to them. It is read from the text as it was compiled, for the header is comments alone. The
disk has the same entries as before, so every further step gives what it gave the first time. -/
theorem renew_idempotent {l : Location} {now : Timestamp} {level : Text} {r : Renewal}
    (hd : s.disk.WellFormed) (hl : l.IsProper)
    (hord : s.disk.fileSystem.HasOrdinaryFiles l.toText) (hpolicy : context.policy = .sensitive)
    (hname : name.any Text.isLineBoundary = false)
    (h : (renew now l.toText name level true context).run s = (.ok r, s'))
    (hfiles : ∀ f ∈ r.inputFiles, IsOrdinary f ∧ s.disk.Takes (absolute l.toText f)) :
    r.IsSettled s' l.toText name level context := by
  obtain ⟨effort, content, hlevel, hpath, hprobe, -, hexpand, hcompile, hwrite⟩ := renew_run h
  have hsel := isSelection_of_outcome hd hl hexpand hfiles
  obtain ⟨hresult, hback⟩ :=
    expand_of_outcome (Disk.isProject hd hl) hord hpolicy hexpand hsel hcompile
  obtain ⟨s'', hlist⟩ := (listFiles_of_renew hd h hl hname hresult).2 hback
  refine ⟨⟨s'', hlist⟩, fun now' write => ?_⟩
  obtain ⟨hsame, hread⟩ := written_of_renew hd h
  have hplain := plainPath_of_renew h hl
  obtain ⟨_, hread', hexpand', -⟩ := listFiles_run.1 hlist
  obtain ⟨htext, hwrite⟩ := hwrite rfl
  refine exists_renew hlevel ?_ ?_ hplain (hplain ▸ hread') hexpand' ?_ (fun text => ?_) now'
    write fun _ => isEncodable_renewedText now' htext
  · rw [pathOf_eq hsame hd, hpath]
  · rw [hsame.probe_eq hd, hprobe]
  · rw [(hsame.sameAnswers hd).compile_eq, hcompile]
  · exact hsame.exists_write hd hwrite

/-- A project with a stored preset. -/
def shelf : Disk where
  nodes := [([[.of 'p']], .directory), ([[.of 'p'], [.of 's']], .directory),
    ([[.of 'p'], [.of 's'], [.of 'a']], .file []), ([[.of 'p'], [.of 's'], [.of 'b']], .file []),
    ([[.of 'p'], [.of 'c']], .file []), ([[.of 'p'], folderName], .directory),
    ([[.of 'p'], folderName, subfolderName], .directory),
    ([[.of 'p'], folderName, subfolderName, [.of 'q'] ++ suffix], .file "# kept\ns/*\r\n".toText)]
  limits := some .standard

/-- The stored preset asks for a whole directory, and is settled once that is written. -/
theorem renew_idempotent_shelf :
    ∃ r s', (renew ⟨2024, 1, 1, 0, 0, 0, none⟩ (below [[.of 'p']]).toText [.of 'q']
        "aggressive".toText true .standard).run ⟨shelf, []⟩ = (.ok r, s') ∧
      r.inputFiles = ["s/a".toText, "s/b".toText] ∧ r.result.patterns = ["s/**".toText] ∧
      r.IsSettled s' (below [[.of 'p']]).toText [.of 'q'] "aggressive".toText .standard := by
  have hd : shelf.WellFormed := by decide
  have hl : (below [[.of 'p']]).IsProper := isProper_below (by decide)
  have hord : shelf.IsOrdinary (below [[.of 'p']]) := by decide
  have hexpand : Expand.outcome shelf.fileSystem (below [[.of 'p']]).toText .standard
      (parse (Text.unifyNewlines "# kept\ns/*\r\n".toText)) =
        .ok ["s/a".toText, "s/b".toText] := by
    decide +kernel
  have hcompile : (Compile.outcome shelf.fileSystem (below [[.of 'p']]).toText .standard .aggressive
      ["s/a".toText, "s/b".toText]).map (fun c =>
        (c.patterns, decide (renewedText ⟨2024, 1, 1, 0, 0, 0, none⟩ [.of 'q'] c).IsEncodable)) =
        .ok (["s/**".toText], true) := by
    decide +kernel
  obtain ⟨c, hc, hboth⟩ := map_eq_ok.1 hcompile
  obtain ⟨hpatterns, htext⟩ := Prod.mk.inj hboth
  have hwrite : shelf.write "/p/.presetc/presets/q.patterns".toText [] =
      .ok (shelf.put [[.of 'p'], folderName, subfolderName, [.of 'q'] ++ suffix] (.file [])) := by
    decide
  obtain ⟨r, s', hrun, rfl, hfiles⟩ := exists_renew (s := ⟨shelf, []⟩)
    (show Level.parse "aggressive".toText = .ok .aggressive by decide)
    (show pathOf shelf (below [[.of 'p']]).toText [.of 'q'] =
      .ok "/p/.presetc/presets/q.patterns".toText by
      decide)
    (by decide) (by decide) (by decide) hexpand hc (Disk.exists_write_of_ok hd hwrite)
    ⟨2024, 1, 1, 0, 0, 0, none⟩ true fun _ => of_decide_eq_true htext
  refine ⟨r, s', hrun, hfiles, hpatterns,
    renew_idempotent hd hl (hord.hasOrdinaryFiles hd hl) rfl (by decide) hrun ?_⟩
  rw [hfiles]
  decide

/-! ### Paths that are too long -/

/-- A project whose path of 4048 bytes is almost as long as the system takes. -/
def deepProject : Location := below (List.replicate 16 (List.replicate 63 (.of '𝄞')))

/-- A name of 48 bytes. -/
def deepFile : Text := List.replicate 12 (.of '𝄞')

/-- A disk with a file whose path is too long, and a preset that asks for it. -/
def deepDisk : Disk where
  nodes := (List.range 16).map (fun n => (deepProject.segments.take (n + 1), .directory)) ++
    [(deepProject.segments ++ [deepFile], .file []),
      (deepProject.segments ++ [folderName], .directory),
      (deepProject.segments ++ [folderName, subfolderName], .directory),
      (deepProject.segments ++ [folderName, subfolderName, [.of 'q'] ++ suffix],
        .file [.of '𝄞', .of '*'])]
  limits := some .standard

/-- Ordinary files alone do not settle a preset. A walk finds a file whose path as a whole is too
long for the system, and the pattern that spells the path does not find it again. -/
theorem not_renew_idempotent :
    ¬ ∀ (s s' : Session) (l : Location) (name level : Text) (context : Context) (now : Timestamp)
      (r : Renewal), s.disk.WellFormed → l.IsProper → s.disk.fileSystem.HasOrdinaryFiles l.toText →
      context.policy = .sensitive → name.any Text.isLineBoundary = false →
      (renew now l.toText name level true context).run s = (.ok r, s') →
      (∀ f ∈ r.inputFiles, IsOrdinary f) → r.IsSettled s' l.toText name level context := by
  intro hall
  have hd : deepDisk.WellFormed := by decide +kernel
  have hl : deepProject.IsProper := isProper_below (by decide +kernel)
  have hord : deepDisk.IsOrdinary deepProject := by decide +kernel
  have hfile : IsOrdinary deepFile := by decide +kernel
  have hpath : pathOf deepDisk deepProject.toText [.of 'q'] =
      .ok (deepProject.toText ++ "/.presetc/presets/q.patterns".toText) := by
    decide +kernel
  have hexpand : Expand.outcome deepDisk.fileSystem deepProject.toText .standard
      (parse (Text.unifyNewlines [.of '𝄞', .of '*'])) = .ok [deepFile] := by
    decide +kernel
  have hcompile : Compile.outcome deepDisk.fileSystem deepProject.toText .standard .minimal
      [deepFile] = .ok ⟨.minimal, [deepFile], [], ⟨1, 1, 0⟩⟩ := by
    decide +kernel
  have hwrite : deepDisk.write (deepProject.toText ++ "/.presetc/presets/q.patterns".toText) [] =
      .ok (deepDisk.put (deepProject.segments ++ [folderName, subfolderName, [.of 'q'] ++ suffix])
        (.file [])) := by
    decide +kernel
  have hnothing : Expand.outcome deepDisk.fileSystem deepProject.toText .standard
      (ofRaw [deepFile]) = .ok [] := by
    decide +kernel
  obtain ⟨place, hplace, heq⟩ := pathOf_isProper hl hpath
  obtain ⟨r, s', hrun, hresult, hfiles⟩ := exists_renew (s := ⟨deepDisk, []⟩)
    (show Level.parse "minimal".toText = .ok .minimal by decide) hpath (by decide +kernel)
    (by rw [heq, plainPath_toText hplace]) (by decide +kernel) hexpand hcompile
    (Disk.exists_write_of_ok hd hwrite) ⟨2024, 1, 1, 0, 0, 0, none⟩ true
    fun _ => by decide +kernel
  have hsettled := hall _ _ _ _ _ _ _ _ hd hl (hord.hasOrdinaryFiles hd hl) rfl (by decide) hrun
    (by rw [hfiles]; exact List.forall_mem_singleton.2 hfile)
  -- the stored pattern is the name of the file, which is its own literal pattern
  have hstored : IsStoredLine deepFile := .inl (isStored_escapeLiteral hfile)
  have hstorable : IsStorable r.result := by
    rw [hresult]
    exact ⟨List.forall_mem_singleton.2 hstored, .inr (by decide), by simp⟩
  have hback := (listFiles_of_renew hd hrun hl (by decide) hstorable).1 hsettled.files
  rw [hresult, hfiles, hnothing] at hback
  cases hback

end GlobPreset.Preset
