import GlobPreset.Proofs.FileSystem.Disk
import GlobPreset.Proofs.Preset.File
import GlobPreset.Proofs.Preset.Inputs
import GlobPreset.Proofs.Preset.Tasks

/-!
# What making a preset does

The inputs are sorted, the files among them that the project has are compiled, and what is written
are the lines of the inputs below a header. Every line of the header is a comment of one line, so
that a reader finds below it what was put there.

## Main definitions

* `Preset.Keeps` — a file input that is a file of the project.
* `Preset.originOf` — what the header tells about the inputs.
* `Preset.Gathers` — what a request finds out about its inputs.
* `Preset.IsNewText` — the text that a preset is made with.
* `Preset.isPrinted` — what descriptions are written with.

## Main results

* `Preset.create_run` — **what a request that succeeds did**.
* `Preset.outcome_normalPath` — compiling files is compiling their normal forms.
* `Preset.isOneLine_originOf` — what the header tells are lines.
* `Preset.isEncodable_originOf` — when it has no surrogates.
-/

set_option autoImplicit false

namespace GlobPreset.Preset

open GlobPreset.Path Location

variable {s s' : Session} {project name : Text} {context : Context}

/-! ### The steps of a request -/

/-- A file input is kept if it is a file of the project. -/
def Keeps (d : Disk) (project file : Text) : Prop :=
  d.probe (plainPath (joinSegment project file)) = .ok (some .file)

/-- **The files that are kept** are those of the project; all are safe, and the disk stays. -/
lemma keepFiles_run {files kept : List Text} :
    ∀ {s s' : Session}, (keepFiles project files).run s = (.ok kept, s') →
      s'.disk = s.disk ∧ (∀ i ∈ files, checkSafe Selection.role i = .ok ()) ∧
        ∀ i, i ∈ kept ↔ i ∈ files ∧ Keeps s.disk project i := by
  induction files generalizing kept with
  | nil =>
    intro s s' h
    obtain ⟨rfl, rfl⟩ := Workflow.pure_run.1 h
    exact ⟨rfl, by simp, by simp⟩
  | cons file files ih =>
    intro s s' h
    simp only [keepFiles, Workflow.bind_run, Workflow.take_run, Workflow.probe_run,
      mapError_eq_ok] at h
    obtain ⟨_, _, ⟨hsafe, rfl⟩, kind, _, ⟨hprobe, rfl⟩, h⟩ := h
    have hkeeps : Keeps s.disk project file ↔ kind = some .file := by
      rw [Keeps, hprobe]
      simp
    split at h
    · rename_i hfile
      simp only [Workflow.bind_run, Workflow.pure_run] at h
      obtain ⟨others, _, hothers, rfl, rfl⟩ := h
      obtain ⟨hdisk, hall, hmem⟩ := ih hothers
      refine ⟨hdisk, List.forall_mem_cons.2 ⟨hsafe, hall⟩, fun i => ?_⟩
      rw [List.mem_cons, List.mem_cons, hmem, or_and_right]
      exact or_congr_left ⟨fun hi => ⟨hi, hi ▸ hkeeps.2 hfile⟩, And.left⟩
    · rename_i hother
      simp only [Workflow.bind_run, Workflow.warn_run] at h
      obtain ⟨_, _, rfl, hothers⟩ := h
      obtain ⟨hdisk, hall, hmem⟩ := ih hothers
      refine ⟨hdisk, List.forall_mem_cons.2 ⟨hsafe, hall⟩, fun i => ?_⟩
      rw [hmem, List.mem_cons, or_and_right]
      refine (or_iff_right ?_).symm
      rintro ⟨rfl, hi⟩
      exact hother (hkeeps.1 hi)

/-- The files are compiled unless there are none, and the disk stays. -/
lemma compileFiles_run {level : Level} {files : List Text} {result : Option Compilation}
    (h : (compileFiles project context level files).run s = (.ok result, s')) :
    s'.disk = s.disk ∧ (files = [] ∧ result = none ∨
      files ≠ [] ∧ ∃ c, result = some c ∧
        Compile.outcome s.disk.fileSystem project context level files = .ok c) := by
  unfold compileFiles at h
  split at h
  · rename_i hempty
    obtain ⟨rfl, rfl⟩ := Workflow.pure_run.1 h
    exact ⟨rfl, .inl ⟨List.isEmpty_iff.1 hempty, rfl⟩⟩
  · rename_i hfull
    simp only [Workflow.bind_run, Workflow.disk_run, Workflow.ofReport_run,
      Workflow.pure_run] at h
    obtain ⟨_, _, ⟨rfl, rfl⟩, c, _, ⟨hc, rfl⟩, rfl, rfl⟩ := h
    exact ⟨rfl, .inr ⟨by simpa using hfull, c, rfl, hc⟩⟩

/-- What a preset is told to come from. -/
def originOf (sorted : InputSorting) (fileCount : Nat) (result : Option Compilation) :
    PresetFile.Origin where
  source := describeSource sorted fileCount result
  preserved := sorted.patterns.length
  converted := sorted.directories.length
  summary := result.map .of

/-- The patterns that files compile to, if there are files. -/
def compiled (result : Option Compilation) : List Text :=
  (result.map Compilation.patterns).getD []

/-- What a request finds out about its sorted inputs: all are safe, the files among them that are
there are kept, and those are compiled. -/
structure Gathers (d : Disk) (project : Text) (context : Context) (sorted : InputSorting)
    (kept : List Text) (result : Option Compilation) : Prop where
  /-- The inputs are safe patterns, apart from exclusion marks. -/
  checked : Pattern.checkInputsSafe (sorted.patterns ++ sorted.directories ++ sorted.files) = .ok ()
  /-- The files among them are safe paths. -/
  safe : ∀ i ∈ sorted.files, checkSafe Selection.role i = .ok ()
  /-- Those that are files of the project are kept. -/
  mem_kept : ∀ i, i ∈ kept ↔ i ∈ sorted.files ∧ Keeps d project i
  /-- They are compiled, if there are any. -/
  compiled : kept = [] ∧ result = none ∨ kept ≠ [] ∧ ∃ c, result = some c ∧
    ∃ level, Compile.outcome d.fileSystem project context level kept = .ok c

/-- The text that a preset is made with: a template if there are no inputs, and else the lines of
the inputs below a header. -/
def IsNewText (now : Timestamp) (d : Disk) (project name : Text) (inputs : List Text)
    (context : Context) (text : Text) : Prop :=
  splitInputs inputs = [] ∧ text = PresetFile.template name ∨
    ∃ sorted kept result, sorted = .of d.fileSystem project (splitInputs inputs) ∧
      Gathers d project context sorted kept result ∧
      text = PresetFile.render name (sorted.lines (compiled result))
        (some (originOf sorted kept.length result)) now

/-- **What making a preset does**: it stores its text at a path that leads to nothing. -/
theorem create_run {now : Timestamp} {inputs : List Text} {level path : Text}
    (h : (create now project name inputs level context).run s = (.ok path, s')) :
    pathOf s.disk project name = .ok path ∧ s.disk.probe path = .ok none ∧
      ∃ text s₁, IsNewText now s.disk project name inputs context text ∧ s₁.disk = s.disk ∧
        (store path text).run s₁ = (.ok (), s') := by
  simp only [create, Workflow.bind_run, Workflow.disk_run, Workflow.take_run, Workflow.probe_run,
    mapError_eq_ok] at h
  obtain ⟨level, _, ⟨-, rfl⟩, _, _, ⟨rfl, rfl⟩, path', _, ⟨hpath, rfl⟩, kind, _, ⟨hprobe, rfl⟩,
    h⟩ := h
  split at h
  · obtain ⟨_, _, hthrow, -⟩ := Workflow.bind_run.1 h
    exact absurd hthrow Workflow.throw_run
  rename_i hkind
  obtain rfl : kind = none := by simpa using hkind
  split at h
  · rename_i hempty
    simp only [Workflow.bind_run, Workflow.pure_run] at h
    obtain ⟨_, _, hstore, rfl, rfl⟩ := h
    exact ⟨hpath, hprobe, _, s, .inl ⟨List.isEmpty_iff.1 hempty, rfl⟩, rfl, hstore⟩
  simp only [Workflow.bind_run, Workflow.take_run, mapError_eq_ok] at h
  obtain ⟨_, _, ⟨hchecked, rfl⟩, kept, s₁, hkept, result, s₂, hresult, h⟩ := h
  obtain ⟨hdisk₁, hsafe, hmem⟩ := keepFiles_run hkept
  obtain ⟨hdisk₂, hcompiled⟩ := compileFiles_run hresult
  obtain ⟨hpath', hstore⟩ := save_run h
  rw [hdisk₁] at hcompiled
  rw [hdisk₂, hdisk₁, hpath] at hpath'
  cases hpath'
  refine ⟨hpath, hprobe, _, s₂, .inr ⟨_, kept, result, rfl, ⟨hchecked, hsafe, hmem, ?_⟩, rfl⟩,
    hdisk₂.trans hdisk₁, hstore⟩
  rcases hcompiled with hnone | ⟨hne, c, hc, houtcome⟩
  · exact .inl hnone
  · exact .inr ⟨hne, c, hc, level, houtcome⟩

/-! ### Files among the inputs -/

/-- Keeping a file input is having the file of its normal form. -/
lemma keeps_iff {d : Disk} {l : Location} (hl : l.IsProper) {file : Text}
    (hsafe : checkSafe Selection.role file = .ok ()) (hback : .of '\\' ∉ file)
    (htame : IsTame (Selection.normalPath file)) :
    Keeps d l.toText file ↔ d.fileSystem.HasFile l.toText (Selection.normalPath file) := by
  have hhead : file.head? ≠ some (.of '/') := by
    have hcause : unsafeCause? file = none := by
      unfold checkSafe at hsafe
      split at hsafe
      · cases hsafe
      · assumption
    have habsolute := (unsafeCause?_eq_none.1 hcause).2.1
    intro hslash
    simp [isAbsolute, hslash] at habsolute
  have hnames : plainNames file = segments (Selection.normalPath file) := by
    conv_lhs => rw [← toSlashes_eq_self hback, ← Selection.plainNames_normalPath,
      ← ofSegments_segments (Selection.normalPath file)]
    exact plainNames_ofSegments htame.areNames.counts
  rw [Keeps, Disk.probe_eq_some, plainPath_joinSegment hl hhead, hnames,
    ← hl.inside htame.areNames, FileSystem.HasFile, absolute_of_isPlain htame.areNames,
    and_iff_right (show IsPlain (Selection.normalPath file) from htame.areNames),
    FileSystem.isFile, beq_iff_eq]
  rfl

/-- Compiling files is compiling their normal forms. -/
lemma outcome_normalPath {fs : FileSystem} {level : Level} {files : List Text}
    (h : ∀ i ∈ files, checkSafe Selection.role i = .ok () ∧ IsTame (Selection.normalPath i)) :
    Compile.outcome fs project context level files =
      Compile.outcome fs project context level (files.map Selection.normalPath) := by
  have hpaths : Compile.pathsOf context files =
      Compile.pathsOf context (files.map Selection.normalPath) := by
    have hnormal : ∀ p ∈ files.map Selection.normalPath, IsTame p := by
      intro p hp
      obtain ⟨i, hi, rfl⟩ := List.mem_map.1 hp
      exact (h i hi).2
    rw [Compile.pathsOf, Compile.pathsOf, Selection.normalize_of_isTame h,
      Selection.normalize_eq_ok hnormal]
  rw [Compile.outcome, Compile.outcome, hpaths]

/-- Files are compiled only if the ignored names can be read. -/
lemma exists_ignoreRules_of_outcome {fs : FileSystem} {level : Level} {files : List Text}
    {c : Compilation} (hpolicy : context.policy = .sensitive) (hne : files ≠ [])
    (hsel : fs.IsSelection project files)
    (h : Compile.outcome fs project context level files = .ok c) :
    ∃ ignore, context.ignoreRules = .ok ignore := by
  have hpaths : (Text.sort (dedupe files)).isEmpty = false := by
    obtain ⟨f, hf⟩ := List.exists_mem_of_ne_nil _ hne
    rw [List.isEmpty_eq_false_iff]
    exact List.ne_nil_of_mem (Text.mem_sort.2 (mem_dedupe.2 hf))
  cases hignore : context.ignoreRules with
  | ok ignore => exact ⟨ignore, rfl⟩
  | error e =>
    simp only [Compile.outcome, Compile.pathsOf_eq_ok hpolicy hsel, hignore, bind, Except.bind,
      Except.mapError, hpaths, Bool.false_eq_true, if_false] at h
    cases h

/-- A project whose files were compiled can be resolved. -/
lemma refusal?_of_outcome {fs : FileSystem} {level : Level} {files : List Text} {c : Compilation}
    {ignore : IgnoreRules} (hpolicy : context.policy = .sensitive)
    (hignore : context.ignoreRules = .ok ignore) (hne : files ≠ [])
    (hsel : fs.IsSelection project files)
    (h : Compile.outcome fs project context level files = .ok c) :
    fs.refusal? project = none := by
  have hpaths : (Text.sort (dedupe files)).isEmpty = false := by
    obtain ⟨f, hf⟩ := List.exists_mem_of_ne_nil _ hne
    rw [List.isEmpty_eq_false_iff]
    exact List.ne_nil_of_mem (Text.mem_sort.2 (mem_dedupe.2 hf))
  cases hrefusal : fs.refusal? project with
  | none => rfl
  | some e =>
    simp only [Compile.outcome, Compile.pathsOf_eq_ok hpolicy hsel, hignore, Compile.scanner,
      hrefusal, bind, Except.bind, Except.mapError, hpaths, Bool.false_eq_true, if_false] at h
    cases h

/-! ### Headers -/

open Text PatternList

/-- No line ends in the name of a level. -/
lemma isLineBoundary_levelName (level : Level) :
    level.name.any isLineBoundary = false := by
  cases level <;> decide

/-- No line ends in the name of a technique. -/
lemma isLineBoundary_techniqueName (technique : Technique) :
    technique.name.any isLineBoundary = false := by
  cases technique <;> decide

/-- What descriptions are written with: a space, a visible character of ASCII, or an arrow. -/
def isPrinted (c : CodePoint) : Bool := decide (32 ≤ c.toNat ∧ c.toNat < 127) || c == .of '→'

/-- What is printed ends no line, and is no surrogate. -/
lemma isPrinted_spec {c : CodePoint} (h : isPrinted c = true) :
    isLineBoundary c = false ∧ c.isSurrogate = false := by
  rcases Bool.or_eq_true_iff.1 h with hascii | harrow
  · have hrange : 32 ≤ c.toNat ∧ c.toNat < 127 := of_decide_eq_true hascii
    refine ⟨?_, ?_⟩
    · simp [isLineBoundary]
      omega
    · cases c with
      | of c => rfl
      | surrogate place =>
        simp only [CodePoint.toNat] at hrange
        omega
  · rw [eq_of_beq harrow]
    decide

/-- A number is printed. -/
lemma isPrinted_ofNat (n : Nat) : (ofNat n).all isPrinted = true := by
  rw [List.all_eq_true]
  intro c hc
  have hrange := range_of_mem_ofNat hc
  rw [isPrinted, decide_eq_true ⟨by omega, by omega⟩, Bool.true_or]

/-- A number of entries is printed. -/
lemma isPrinted_counted (n : Nat) {what : String} (hwhat : what.toText.all isPrinted = true) :
    (counted n what).all isPrinted = true := by
  rw [counted, List.all_append, List.all_cons, isPrinted_ofNat, hwhat]
  decide

/-- **A description of the source** is printed. -/
lemma isPrinted_describeSource (sorted : InputSorting) (fileCount : Nat)
    (result : Option Compilation) :
    (describeSource sorted fileCount result).all isPrinted = true := by
  have harrow : ∀ (c : Compilation) (kind : String), kind.toText.all isPrinted = true →
      (ofNat fileCount ++ kind.toText ++ " → ".toText ++
        counted c.stats.finalPatterns "patterns").all isPrinted = true := by
    intro c kind hkind
    rw [List.all_append, List.all_append, List.all_append, isPrinted_ofNat, hkind,
      isPrinted_counted _ (by decide)]
    decide
  have hjoin : ∀ parts : List Text, (∀ p ∈ parts, p.all isPrinted = true) →
      (joinWith [.of ',', .of ' '] parts).all isPrinted = true := by
    intro parts hparts
    have hcomma : ∀ c ∈ ([.of ',', .of ' '] : Text), isPrinted c = true := by decide
    refine List.all_eq_true.2 fun c hc => ?_
    rcases mem_joinWith hc with hc | ⟨p, hp, hc⟩
    · exact hcomma c hc
    · exact List.all_eq_true.1 (hparts p hp) c hc
  unfold describeSource
  dsimp only
  split
  · rw [List.all_append, List.all_append, hjoin]
    · decide
    · rw [List.forall_mem_append, List.forall_mem_append]
      refine ⟨⟨?_, ?_⟩, fun p hp => ?_⟩
      · split
        · simp
        · exact List.forall_mem_singleton.2 (isPrinted_counted _ (by decide))
      · split
        · simp
        · exact List.forall_mem_singleton.2 (isPrinted_counted _ (by decide))
      · obtain ⟨c, -, rfl⟩ := Option.map_eq_some_iff.1 (Option.mem_toList.1 hp)
        exact harrow c " files" (by decide)
  split
  · rw [List.all_append, List.all_append, isPrinted_ofNat]
    decide
  split
  · rw [List.all_append, List.all_append, isPrinted_ofNat]
    decide
  cases result with
  | none => rfl
  | some c =>
    rw [List.all_append, List.all_append, harrow c "" (by decide)]
    decide

/-- A description of the source is one line. -/
lemma isLineBoundary_describeSource (sorted : InputSorting) (fileCount : Nat)
    (result : Option Compilation) :
    (describeSource sorted fileCount result).any isLineBoundary = false := by
  have hprinted := List.all_eq_true.1 (isPrinted_describeSource sorted fileCount result)
  exact List.any_eq_false.2 fun c hc =>
    Bool.eq_false_iff.1 (isPrinted_spec (hprinted c hc)).1

/-- A description of the source has no surrogates. -/
lemma isEncodable_describeSource (sorted : InputSorting) (fileCount : Nat)
    (result : Option Compilation) : (describeSource sorted fileCount result).IsEncodable := by
  have hprinted := List.all_eq_true.1 (isPrinted_describeSource sorted fileCount result)
  exact fun c hc => (isPrinted_spec (hprinted c hc)).2

/-- What is told about a compilation is one line each. -/
lemma isOneLine_summary {c : Compilation} (h : ∀ a ∈ c.applied, a.IsOneLine) :
    (PresetFile.Summary.of c).IsOneLine where
  level := isLineBoundary_levelName c.level
  applied := by
    intro a ha
    obtain ⟨application, happlied, rfl⟩ := List.mem_map.1 ha
    exact ⟨isLineBoundary_techniqueName application.technique, h application happlied⟩

/-- What a preset is told to come from is one line each. -/
lemma isOneLine_originOf (sorted : InputSorting) (fileCount : Nat) {result : Option Compilation}
    (h : ∀ c ∈ result, ∀ a ∈ c.applied, a.IsOneLine) :
    (originOf sorted fileCount result).IsOneLine where
  source := isLineBoundary_describeSource sorted fileCount result
  summary := by
    intro summary hsummary
    obtain ⟨c, hc, rfl⟩ := Option.map_eq_some_iff.1 hsummary
    exact isOneLine_summary (h c hc)

/-- What a preset is told to come from has no surrogates if the details of the applied rules have
none. -/
lemma isEncodable_originOf {sorted : InputSorting} {fileCount : Nat} {result : Option Compilation} :
    (∀ l ∈ (originOf sorted fileCount result).lines, l.IsEncodable) ↔
      ∀ c ∈ result, ∀ a ∈ c.applied, a.details.IsEncodable := by
  have hlevel : ∀ level : Level, level.name.IsEncodable := by
    intro level
    cases level <;> decide
  have htechnique : ∀ technique : Technique, technique.name.IsEncodable := by
    intro technique
    cases technique <;> decide
  have hsource : (originOf sorted fileCount result).source.IsEncodable :=
    isEncodable_describeSource sorted fileCount result
  rw [PresetFile.Origin.isEncodable_lines, and_iff_right hsource]
  cases result with
  | none => simp [originOf]
  | some c =>
    have hlines : (∀ l ∈ (PresetFile.Summary.of c).lines, l.IsEncodable) ↔
        ∀ a ∈ c.applied, a.details.IsEncodable := by
      refine PresetFile.Summary.isEncodable_lines.trans
        ((and_iff_right (hlevel c.level)).trans (List.forall_mem_map.trans ?_))
      exact forall₂_congr fun a _ => and_iff_right (htechnique a.technique)
    simpa [originOf] using hlines

end GlobPreset.Preset
