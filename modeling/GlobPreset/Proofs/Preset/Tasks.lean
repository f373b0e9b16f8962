import GlobPreset.Preset.Store
import GlobPreset.Proofs.FileSystem.Disk
import GlobPreset.Proofs.Results

/-!
# How tasks end

A task that ends with a result is taken apart into the steps that it is made of. For each step it is
said when it succeeds, and what it leaves; so a request is read off its steps one after another.

## Main results

* `Workflow.bind_run`, `Workflow.exists_bind_run` — a task of two parts succeeds if both do.
* `Workflow.bind_run_error` — a task of two parts stops where one of them does.
* `Workflow.take_run`, `Workflow.probe_run`, `Workflow.change_run`, `Workflow.attempt_run`,
  `Workflow.ofReport_run` — when a step succeeds, and what it leaves.
* `Preset.store_run`, `Preset.existing_run`, `Preset.readText_run` — the requests about one file.
-/

set_option autoImplicit false

namespace GlobPreset

namespace Workflow

variable {α β : Type} {s s' : Session}

/-- A task of two parts goes on from the first one if that succeeds. -/
lemma run_bind (x : Workflow α) (f : α → Workflow β) (s : Session) :
    (x >>= f).run s =
      match x.run s with
      | (.ok a, s₁) => (f a).run s₁
      | (.error e, s₁) => (.error e, s₁) := by
  change (x >>= f) s = _
  simp only [bind, ExceptT.bind, ExceptT.mk, StateT.bind]
  change (match x.run s with | (a, s₁) => _) = _
  obtain ⟨r, s₁⟩ := x.run s
  cases r <;> rfl

/-- **A task of two parts** succeeds if both do, one after the other. -/
@[simp] theorem bind_run {x : Workflow α} {f : α → Workflow β} {b : β} :
    (x >>= f).run s = (.ok b, s') ↔ ∃ a s₁, x.run s = (.ok a, s₁) ∧ (f a).run s₁ = (.ok b, s') := by
  rw [run_bind]
  constructor
  · intro h
    split at h
    · rename_i a s₁ hx
      exact ⟨a, s₁, hx, h⟩
    · cases h
  · rintro ⟨a, s₁, hx, hf⟩
    rw [hx]
    exact hf

/-- A task of two parts stops where the first one does, or behind it where the second one does. -/
lemma bind_run_error {x : Workflow α} {f : α → Workflow β} {e : Fault} :
    (x >>= f).run s = (.error e, s') ↔ x.run s = (.error e, s') ∨
      ∃ a s₁, x.run s = (.ok a, s₁) ∧ (f a).run s₁ = (.error e, s') := by
  rw [run_bind]
  rcases x.run s with ⟨r, s₁⟩
  cases r with
  | ok a =>
    refine ⟨fun h => .inr ⟨a, s₁, rfl, h⟩, ?_⟩
    rintro (h | ⟨a', s₂, ha, h⟩)
    · cases h
    · cases ha
      exact h
  | error e' =>
    constructor
    · rintro ⟨⟩
      exact .inl rfl
    · rintro (h | ⟨a', s₂, ha, -⟩)
      · cases h
        rfl
      · cases ha

/-- A task goes on from its first step. -/
lemma exists_bind_run {x : Workflow α} {f : α → Workflow β} {a : α} {s₁ : Session}
    {IsGood : β → Prop} (hx : x.run s = (.ok a, s₁))
    (hf : ∃ b s', (f a).run s₁ = (.ok b, s') ∧ IsGood b) :
    ∃ b s', (x >>= f).run s = (.ok b, s') ∧ IsGood b := by
  obtain ⟨b, s', hb, hgood⟩ := hf
  exact ⟨b, s', bind_run.2 ⟨a, s₁, hx, hb⟩, hgood⟩

/-- A task that only gives a result leaves the session. -/
@[simp] theorem pure_run {a b : α} :
    (pure a : Workflow α).run s = (.ok b, s') ↔ a = b ∧ s = s' := by
  change (Except.ok a, s) = (Except.ok b, s') ↔ _
  simp

/-- A task that only stops never succeeds. -/
@[simp] theorem throw_run {e : Fault} {b : α} :
    ¬ (throw e : Workflow α).run s = (.ok b, s') := by
  change ¬ (Except.error e, s) = (Except.ok b, s')
  simp

/-- Taking a result succeeds with it, and leaves the session. -/
@[simp] theorem take_run {r : Except Fault α} {a : α} :
    (take r).run s = (.ok a, s') ↔ r = .ok a ∧ s = s' := by
  cases r with
  | ok b =>
    change (Except.ok b, s) = (Except.ok a, s') ↔ _
    simp
  | error e =>
    change (Except.error e, s) = (Except.ok a, s') ↔ _
    simp

/-- Asking for the disk gives the one of the session. -/
@[simp] theorem disk_run {d : Disk} : disk.run s = (.ok d, s') ↔ s.disk = d ∧ s = s' := by
  change (Except.ok s.disk, s) = (Except.ok d, s') ↔ _
  simp

/-- Warning adds the warnings. -/
@[simp] theorem warn_run {warnings : List Warning} {u : Unit} :
    (warn warnings).run s = (.ok u, s') ↔
      s' = { s with warnings := s.warnings ++ warnings } := by
  change (Except.ok (), { s with warnings := s.warnings ++ warnings }) = (Except.ok u, s') ↔ _
  simp [eq_comm]

/-- Asking for a path succeeds if the disk has an answer. -/
@[simp] theorem probe_run {path : Text} {kind : Option NodeKind} :
    (probe path).run s = (.ok kind, s') ↔ s.disk.probe path = .ok kind ∧ s = s' := by
  simp only [probe, bind_run, disk_run, take_run, mapError_eq_ok]
  constructor
  · rintro ⟨_, _, ⟨rfl, rfl⟩, hprobe⟩
    exact hprobe
  · exact fun hprobe => ⟨_, _, ⟨rfl, rfl⟩, hprobe⟩

/-- Changing the disk succeeds if there is a next one. -/
@[simp] theorem change_run {next : Except FileError Disk} {u : Unit} :
    (change next).run s = (.ok u, s') ↔ ∃ d, next = .ok d ∧ s' = { s with disk := d } := by
  cases next with
  | ok d =>
    change (Except.ok (), { s with disk := d }) = (Except.ok u, s') ↔ _
    simp [eq_comm]
  | error e =>
    change (Except.error _, s) = (Except.ok u, s') ↔ _
    simp

/-- Attempting something succeeds if it did not fail. -/
@[simp] theorem attempt_run {a : Disk.Attempt} {u : Unit} :
    (attempt a).run s = (.ok u, s') ↔ a.failure = none ∧ s' = { s with disk := a.disk } := by
  obtain ⟨d, failure⟩ := a
  cases failure with
  | none =>
    change (Except.ok (), { s with disk := d }) = (Except.ok u, s') ↔ _
    simp [eq_comm]
  | some e =>
    change (Except.error _, { s with disk := d }) = (Except.ok u, s') ↔ _
    simp

/-- A refused change leaves the disk as it was. -/
lemma change_run_error {next : Except FileError Disk} {e : Fault} :
    (change next).run s = (.error e, s') ↔ ∃ f, next = .error f ∧ e = .file f ∧ s' = s := by
  cases next with
  | ok d =>
    change (Except.ok (), { s with disk := d }) = (Except.error e, s') ↔ _
    simp
  | error f =>
    change (Except.error (.file f), s) = (Except.error e, s') ↔ _
    simp [eq_comm]

/-- An attempt that fails leaves what was done. -/
lemma attempt_run_error {a : Disk.Attempt} {e : Fault} :
    (attempt a).run s = (.error e, s') ↔
      ∃ f, a.failure = some f ∧ e = .file f ∧ s' = { s with disk := a.disk } := by
  obtain ⟨d, failure⟩ := a
  cases failure with
  | none =>
    change (Except.ok (), { s with disk := d }) = (Except.error e, s') ↔ _
    simp
  | some f =>
    change (Except.error (.file f), { s with disk := d }) = (Except.error e, s') ↔ _
    simp [eq_comm]

/-- Passing on a report succeeds with its outcome, and adds its warnings. -/
@[simp] theorem ofReport_run {r : Report α} {a : α} :
    (ofReport r).run s = (.ok a, s') ↔
      r.outcome = .ok a ∧ s' = { s with warnings := s.warnings ++ r.warnings } := by
  simp only [ofReport, bind_run, warn_run, take_run]
  constructor
  · rintro ⟨_, _, rfl, houtcome, rfl⟩
    exact ⟨houtcome, rfl⟩
  · rintro ⟨houtcome, rfl⟩
    exact ⟨(), _, rfl, houtcome, rfl⟩

end Workflow

namespace Preset

variable {s s' : Session}

/-- **What storing a text leaves**: its directory is made, and then it is written; so it has no
surrogates. -/
lemma store_run {path text : Text} {u : Unit} :
    (store path text).run s = (.ok u, s') ↔
      (s.disk.makeDirectories (Path.parent path)).failure = none ∧ text.IsEncodable ∧
        ∃ d, (s.disk.makeDirectories (Path.parent path)).disk.write path text = .ok d ∧
          s' = { s with disk := d } := by
  simp only [store, Workflow.bind_run, Workflow.disk_run, Workflow.attempt_run,
    Disk.writeText_failure_eq_none]
  constructor
  · rintro ⟨_, _, ⟨rfl, rfl⟩, _, _, ⟨hmade, rfl⟩, _, _, ⟨rfl, rfl⟩, ⟨htext, hwrite⟩, rfl⟩
    exact ⟨hmade, htext, _, hwrite, rfl⟩
  · rintro ⟨hmade, htext, d, hwrite, rfl⟩
    have hdisk : ((s.disk.makeDirectories (Path.parent path)).disk.writeText path text).disk =
        d := by
      rw [Disk.writeText_of_isEncodable htext, hwrite]
    refine ⟨_, _, ⟨rfl, rfl⟩, (), _, ⟨hmade, rfl⟩, _, _, ⟨rfl, rfl⟩, ⟨htext, ?_⟩, ?_⟩
    · rw [hdisk]
      exact hwrite
    · rw [hdisk]

/-- **Storing a text that stops** does so before or after its directory was made, or where the file
was opened for a text with surrogates. -/
lemma store_run_error {path text : Text} {e : Fault}
    (h : (store path text).run s = (.error e, s')) :
    s'.disk = (s.disk.makeDirectories (Path.parent path)).disk ∨
      (∃ error, e = .file (.unencodable error)) ∧
        (s.disk.makeDirectories (Path.parent path)).failure = none ∧
        (s.disk.makeDirectories (Path.parent path)).disk.write path [] = .ok s'.disk := by
  simp only [store, Workflow.bind_run_error, Workflow.disk_run, Workflow.attempt_run,
    Workflow.attempt_run_error] at h
  rcases h with h | ⟨_, _, ⟨rfl, rfl⟩, ⟨f, -, -, rfl⟩ | ⟨_, _, ⟨hmade, rfl⟩, h⟩⟩
  · cases h
  · exact .inl rfl
  · rcases h with h | ⟨_, _, ⟨rfl, rfl⟩, f, hfailure, rfl, rfl⟩
    · cases h
    · refine (Disk.writeText_of_failure hfailure).imp_right ?_
      rintro ⟨⟨error, rfl⟩, hopen⟩
      exact ⟨⟨error, rfl⟩, hmade, hopen⟩

/-- **What saving a preset leaves**: its rendered text is stored under its path, at which nothing
was before unless it was to be replaced. -/
lemma save_run {now : Timestamp} {project name path : Text} {patterns : List Text}
    {overwrite : Bool} {origin : Option PresetFile.Origin}
    (h : (save now project name patterns overwrite origin).run s = (.ok path, s')) :
    pathOf s.disk project name = .ok path ∧
      (store path (PresetFile.render name patterns origin now)).run s = (.ok (), s') := by
  simp only [save, Workflow.bind_run, Workflow.disk_run, Workflow.take_run,
    Workflow.probe_run] at h
  obtain ⟨_, _, ⟨rfl, rfl⟩, path', _, ⟨hpath, rfl⟩, kind, _, ⟨hprobe, rfl⟩, h⟩ := h
  split at h
  · obtain ⟨_, _, hthrow, -⟩ := Workflow.bind_run.1 h
    exact absurd hthrow Workflow.throw_run
  · simp only [Workflow.bind_run, Workflow.pure_run] at h
    obtain ⟨_, _, hstore, rfl, rfl⟩ := h
    exact ⟨hpath, hstore⟩

/-- A preset that is there has the path of its name, and a file is at that path. -/
@[simp] lemma existing_run {project name path : Text} :
    (existing project name).run s = (.ok path, s') ↔
      pathOf s.disk project name = .ok path ∧ s.disk.probe path = .ok (some .file) ∧ s = s' := by
  simp only [existing, Workflow.bind_run, Workflow.disk_run, Workflow.take_run,
    Workflow.probe_run]
  constructor
  · rintro ⟨_, _, ⟨rfl, rfl⟩, path', _, ⟨hpath, rfl⟩, kind, _, ⟨hprobe, rfl⟩, h⟩
    split at h
    · obtain ⟨_, _, hthrow, -⟩ := Workflow.bind_run.1 h
      exact absurd hthrow Workflow.throw_run
    · rename_i hfile
      obtain ⟨rfl, rfl⟩ := Workflow.pure_run.1 h
      exact ⟨hpath, by rw [hprobe, Decidable.not_not.1 hfile], rfl⟩
  · rintro ⟨hpath, hprobe, rfl⟩
    refine ⟨_, _, ⟨rfl, rfl⟩, path, _, ⟨hpath, rfl⟩, _, _, ⟨hprobe, rfl⟩, ?_⟩
    rw [if_neg (by simp)]
    exact Workflow.pure_run.2 ⟨rfl, rfl⟩

/-- What is read of a file. -/
@[simp] lemma readText_run {path text : Text} :
    (readText path).run s = (.ok text, s') ↔
      (∃ content, s.disk.read path = .ok content ∧ Text.unifyNewlines content = text) ∧ s = s' := by
  simp only [readText, Workflow.bind_run, Workflow.disk_run, Workflow.take_run, mapError_eq_ok,
    Workflow.pure_run]
  constructor
  · rintro ⟨_, _, ⟨rfl, rfl⟩, content, _, ⟨hread, rfl⟩, htext, rfl⟩
    exact ⟨⟨content, hread, htext⟩, rfl⟩
  · rintro ⟨⟨content, hread, htext⟩, rfl⟩
    exact ⟨_, _, ⟨rfl, rfl⟩, content, _, ⟨hread, rfl⟩, htext, rfl⟩

/-- What is loaded of a preset. -/
lemma load_run {project name : Text} {patterns : List Text} :
    (load project name).run s = (.ok patterns, s') ↔
      ∃ path content, pathOf s.disk project name = .ok path ∧
        s.disk.probe path = .ok (some .file) ∧ s.disk.read path = .ok content ∧
        PresetFile.patternLines (Text.unifyNewlines content) = patterns ∧ s = s' := by
  simp only [load, Workflow.bind_run, existing_run, readText_run, Workflow.pure_run]
  constructor
  · rintro ⟨path, _, ⟨hpath, hprobe, rfl⟩, _, _, ⟨⟨content, hread, rfl⟩, rfl⟩, hpatterns, rfl⟩
    exact ⟨path, content, hpath, hprobe, hread, hpatterns, rfl⟩
  · rintro ⟨path, content, hpath, hprobe, hread, hpatterns, rfl⟩
    exact ⟨path, _, ⟨hpath, hprobe, rfl⟩, _, _, ⟨⟨content, hread, rfl⟩, rfl⟩, hpatterns, rfl⟩

end Preset

end GlobPreset
