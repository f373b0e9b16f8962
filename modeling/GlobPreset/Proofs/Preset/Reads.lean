import GlobPreset.Preset.Workflow
import GlobPreset.Proofs.Preset.Tasks

/-!
# How tasks end on a disk

A task that is run on a disk stops or succeeds, and what is left then is told by a judgment that is
put together from those about its steps. Most of what a request does leaves the disk as it is: it
looks for entries, reads texts, expands and compiles. Such a task may stop, but then nothing was
changed, and the reason is one of a few kinds. So a request is taken apart into a part that only
reads and the one write at its end.

## Main definitions

* `Workflow.Ends` — how a task ends on a disk.
* `Workflow.Reads` — a task that leaves the disk as it is, and stops for reasons of a kind only.

## Main results

* `Workflow.Ends.bind`, `Workflow.Ends.bind_reads` — how a task of two parts ends.
* `Workflow.Reads.bind` — tasks that read, one after the other.
* `Expand.fault_of_outcome`, `Compile.fault_of_outcome` — what stops expanding and compiling.
* `Preset.reads_expand`, `Preset.reads_compile`, `Preset.reads_probe`, `Preset.reads_keepFiles`,
  `Preset.ends_compileFiles` — the parts of requests that only read.
-/

set_option autoImplicit false

namespace GlobPreset

/-! ### How tasks end -/

namespace Workflow

variable {α β : Type}

/-- How a task ends on a disk, whatever the warnings so far are: it stops with a fault and a disk of
one kind, or it succeeds with a result and a disk of another one. -/
structure Ends (d : Disk) (x : Workflow α) (E : Fault → Disk → Prop) (Q : α → Disk → Prop) :
    Prop where
  /-- What it stops with, and what is left then. -/
  stops : ∀ {s s' e}, s.disk = d → x.run s = (.error e, s') → E e s'.disk
  /-- What it succeeds with, and what is left then. -/
  succeeds : ∀ {s s' a}, s.disk = d → x.run s = (.ok a, s') → Q a s'.disk

namespace Ends

variable {d d' : Disk} {E : Fault → Disk → Prop} {Q : α → Disk → Prop} {Q' : β → Disk → Prop}
  {x : Workflow α} {f : α → Workflow β}

/-- A task of which it is known how it ends. -/
lemma of_run {a : α} (hx : ∀ s, s.disk = d → ∃ s', x.run s = (.ok a, s') ∧ s'.disk = d')
    (hQ : Q a d') : Ends d x E Q where
  stops hs hrun := by
    obtain ⟨s', hend, -⟩ := hx _ hs
    rw [hend] at hrun
    cases hrun
  succeeds hs hrun := by
    obtain ⟨s', hend, hdisk⟩ := hx _ hs
    rw [hend] at hrun
    cases hrun
    rwa [hdisk]

/-- A task that only gives a result ends with it. -/
lemma pure {a : α} (h : Q a d) : Ends d (Pure.pure a : Workflow α) E Q :=
  .of_run (fun s hs => ⟨s, rfl, hs⟩) h

/-- A task that only stops ends with its fault. -/
lemma throw {e : Fault} (h : E e d) : Ends d (MonadExcept.throw e : Workflow α) E Q where
  stops hs hrun := by
    cases hrun
    rwa [hs]
  succeeds _ hrun := by cases hrun

/-- Nothing comes behind a stop. -/
lemma throw_bind {e : Fault} (h : E e d) (g : β → Workflow α) :
    Ends d (MonadExcept.throw e >>= g) E Q :=
  (throw h : Ends d (MonadExcept.throw e : Workflow α) E Q)

/-- What is said about an end may be weakened. -/
lemma mono {E' : Fault → Disk → Prop} {R : α → Disk → Prop} (hx : Ends d x E Q)
    (hE : ∀ e d', E e d' → E' e d') (hQ : ∀ a d', Q a d' → R a d') : Ends d x E' R where
  stops hs hrun := hE _ _ (hx.stops hs hrun)
  succeeds hs hrun := hQ _ _ (hx.succeeds hs hrun)

/-- A change that is not refused. -/
lemma change {next : Except FileError Disk} {Q : Unit → Disk → Prop} (hnext : next = .ok d')
    (hQ : Q () d') : Ends d (Workflow.change next) E Q :=
  .of_run (fun _ _ => ⟨_, change_run.2 ⟨d', hnext, rfl⟩, rfl⟩) hQ

/-- **One task after the other.** -/
theorem bind (hx : Ends d x E Q) (hf : ∀ a d', Q a d' → Ends d' (f a) E Q') :
    Ends d (x >>= f) E Q' where
  stops hs hrun := by
    rcases bind_run_error.1 hrun with hrun | ⟨a, s₁, hfirst, hrun⟩
    · exact hx.stops hs hrun
    · exact (hf a _ (hx.succeeds hs hfirst)).stops rfl hrun
  succeeds hs hrun := by
    obtain ⟨a, s₁, hfirst, hrun⟩ := bind_run.1 hrun
    exact (hf a _ (hx.succeeds hs hfirst)).succeeds rfl hrun

/-- A step of which it is known how it ends. -/
lemma bind_of_run {a : α} (hx : ∀ s, s.disk = d → ∃ s', x.run s = (.ok a, s') ∧ s'.disk = d')
    (hf : Ends d' (f a) E Q') : Ends d (x >>= f) E Q' := by
  refine .bind (of_run (Q := fun b d₁ => b = a ∧ d₁ = d') hx ⟨rfl, rfl⟩) ?_
  rintro _ _ ⟨rfl, rfl⟩
  exact hf

/-- A result that is there is taken. -/
lemma bind_take {r : Except Fault α} {a : α} (hr : r = .ok a) (hf : Ends d (f a) E Q') :
    Ends d (Workflow.take r >>= f) E Q' :=
  .bind_of_run (fun s hs => ⟨s, take_run.2 ⟨hr, rfl⟩, hs⟩) hf

/-- A fault that is there is a stop. -/
lemma bind_take_error {r : Except Fault α} {e : Fault} (hr : r = .error e) (hE : E e d) :
    Ends d (Workflow.take r >>= f) E Q' := by
  subst hr
  exact .throw_bind hE f

/-- A task that asks for the disk goes on with it. -/
lemma bind_disk {f : Disk → Workflow β} (hf : Ends d (f d) E Q') :
    Ends d (Workflow.disk >>= f) E Q' :=
  .bind_of_run (fun s hs => ⟨s, disk_run.2 ⟨hs, rfl⟩, hs⟩) hf

/-- A task that asks for a path goes on with the answer. -/
lemma bind_probe {path : Text} {kind : Option NodeKind} {f : Option NodeKind → Workflow β}
    (hprobe : d.probe path = .ok kind) (hf : Ends d (f kind) E Q') :
    Ends d (Workflow.probe path >>= f) E Q' :=
  .bind_of_run (fun s hs => ⟨s, probe_run.2 ⟨hs ▸ hprobe, rfl⟩, hs⟩) hf

/-- An entry that cannot be looked for is a stop. -/
lemma bind_probe_error {path : Text} {error : FileError} {f : Option NodeKind → Workflow β}
    (hprobe : d.probe path = .error error) (hE : E (.file error) d) :
    Ends d (Workflow.probe path >>= f) E Q' := by
  rw [Workflow.probe, bind_assoc]
  exact .bind_disk (.bind_take_error (by rw [hprobe]; rfl) hE)

/-- A task that attempts something goes on if that does not fail. -/
lemma bind_attempt {attempted : Disk.Attempt} {f : Unit → Workflow β}
    (hok : attempted.failure = none) (hf : Ends attempted.disk (f ()) E Q') :
    Ends d (Workflow.attempt attempted >>= f) E Q' :=
  .bind_of_run (a := ()) (fun _ _ => ⟨_, attempt_run.2 ⟨hok, rfl⟩, rfl⟩) hf

/-- An attempt ends with what it left, whether it failed or not. -/
lemma attempt {attempted : Disk.Attempt} {Q : Unit → Disk → Prop}
    (h : match attempted.failure with
      | none => Q () attempted.disk
      | some f => E (.file f) attempted.disk) : Ends d (Workflow.attempt attempted) E Q where
  stops _ hrun := by
    obtain ⟨f, hfailure, rfl, rfl⟩ := attempt_run_error.1 hrun
    rwa [hfailure] at h
  succeeds _ hrun := by
    obtain ⟨hfailure, rfl⟩ := attempt_run.1 hrun
    rwa [hfailure] at h

end Ends

/-! ### Tasks that read -/

/-- A task that leaves the disk as it is, and stops for reasons of a kind only. -/
def Reads (P : Fault → Prop) (x : Workflow α) : Prop :=
  ∀ d, Ends d x (fun e d' => P e ∧ d' = d) (fun _ d' => d' = d)

/-- A task that only reads, in front of another one. -/
lemma Ends.bind_reads {d : Disk} {E : Fault → Disk → Prop} {Q : β → Disk → Prop} {x : Workflow α}
    {f : α → Workflow β} {P : Fault → Prop} (hx : Reads P x) (hE : ∀ e, P e → E e d)
    (hf : ∀ a, Ends d (f a) E Q) : Ends d (x >>= f) E Q := by
  refine .bind ((hx d).mono ?_ fun _ _ heq => heq) ?_
  · rintro e _ ⟨he, rfl⟩
    exact hE e he
  · rintro a _ rfl
    exact hf a

namespace Reads

variable {P : Fault → Prop}

/-- Giving a result only reads. -/
lemma pure (a : α) : Reads P (Pure.pure a : Workflow α) := fun _ => .pure rfl

/-- Nothing comes behind a stop. -/
lemma throw_bind {e : Fault} (h : P e) (f : β → Workflow α) :
    Reads P (MonadExcept.throw e >>= f) :=
  fun _ => .throw_bind ⟨h, rfl⟩ f

/-- Asking for the disk only reads. -/
lemma get : Reads P Workflow.disk :=
  fun _ => .of_run (fun s hs => ⟨s, disk_run.2 ⟨hs, rfl⟩, hs⟩) rfl

/-- Warning only reads. -/
lemma warn (warnings : List Warning) : Reads P (Workflow.warn warnings) :=
  fun _ => .of_run (a := ()) (fun _ hs => ⟨_, warn_run.2 rfl, hs⟩) rfl

/-- Taking a result only reads, whatever its error may be. -/
lemma take {r : Except Fault α} (h : ∀ e, r = .error e → P e) : Reads P (Workflow.take r) := by
  cases r with
  | ok a => exact .pure a
  | error e => exact fun _ => .throw ⟨h e rfl, rfl⟩

/-- **Tasks that read**, one after the other. -/
theorem bind {x : Workflow α} {f : α → Workflow β} (hx : Reads P x) (hf : ∀ a, Reads P (f a)) :
    Reads P (x >>= f) :=
  fun d => .bind_reads hx (fun _ he => ⟨he, rfl⟩) fun a => hf a d

/-- Only a name that is too long is a reason not to look for an entry. -/
lemma probe (h : ∀ path, P (.file (.system .nameTooLong path))) (path : Text) :
    Reads P (Workflow.probe path) := by
  refine .bind .get fun d => .take fun e he => ?_
  obtain ⟨r, hr, rfl⟩ := mapError_eq_error.1 he
  unfold Disk.probe at hr
  split at hr
  · cases hr
  · split at hr
    · cases hr
    · cases hr
      exact h path
    · cases hr

/-- Passing on a report only reads, whatever its fault may be. -/
lemma ofReport {r : Report α} (h : ∀ e, r.outcome = .error e → P e) :
    Reads P (Workflow.ofReport r) :=
  .bind (.warn _) fun _ => .take h

/-- More kinds of reasons. -/
lemma mono {Q : Fault → Prop} {x : Workflow α} (hx : Reads P x) (hPQ : ∀ e, P e → Q e) :
    Reads Q x :=
  fun d => (hx d).mono (fun e _ he => ⟨hPQ e he.1, he.2⟩) fun _ _ heq => heq

end Reads

end Workflow

/-! ### What stops expanding and compiling -/

/-- An expansion is stopped by a pattern that could leave the project, or by one that is refused. -/
lemma Expand.fault_of_outcome {fs : FileSystem} {root : Text} {context : Context}
    {list : PatternList} {e : Fault} (h : Expand.outcome fs root context list = .error e) :
    (∃ u, list.checkSafe = .error u ∧ e = .unsafePath u) ∨ ∃ l, e = .badLine l := by
  rcases bind_eq_error.1 h with h | ⟨_, -, h⟩
  · obtain ⟨u, hunsafe, rfl⟩ := mapError_eq_error.1 h
    exact .inl ⟨u, hunsafe, rfl⟩
  split at h
  · cases h
  refine .inr ?_
  rcases bind_eq_error.1 h with h | ⟨ignore, -, h⟩
  · obtain ⟨l, -, rfl⟩ := mapError_eq_error.1 h
    exact ⟨l, rfl⟩
  rcases bind_eq_error.1 h with h | ⟨found, -, h⟩
  · obtain ⟨g, -, h⟩ := exists_of_mapM_eq_error h
    rcases bind_eq_error.1 h with h | ⟨matcher, -, h⟩
    · obtain ⟨l, -, rfl⟩ := mapError_eq_error.1 h
      exact ⟨l, rfl⟩
    · cases h
  rcases bind_eq_error.1 h with h | ⟨kept, -, h⟩
  · unfold withoutExcluded at h
    split at h
    · cases h
    rcases bind_eq_error.1 h with h | ⟨matcher, -, h⟩
    · obtain ⟨l, -, rfl⟩ := mapError_eq_error.1 h
      exact ⟨l, rfl⟩
    · cases h
  · cases h

/-- A compilation is stopped by a path that could leave the project, by an ignored name that is
refused, by a name for a file and a directory, by the project itself, or by a project that cannot be
resolved. -/
lemma Compile.fault_of_outcome {fs : FileSystem} {root : Text} {context : Context} {level : Level}
    {selection : List Text} {e : Fault}
    (h : Compile.outcome fs root context level selection = .error e) :
    (∃ u, e = .unsafePath u) ∨ (∃ l, e = .badLine l) ∨ (∃ c, e = .conflict c) ∨
      e = .projectScan ∨ ∃ f, fs.refusal? root = some f ∧ e = .file f := by
  rcases bind_eq_error.1 h with h | ⟨paths, -, h⟩
  · obtain ⟨u, -, rfl⟩ := mapError_eq_error.1 h
    exact .inl ⟨u, rfl⟩
  split at h
  · cases h
  refine .inr ?_
  rcases bind_eq_error.1 h with h | ⟨ignore, -, h⟩
  · obtain ⟨l, -, rfl⟩ := mapError_eq_error.1 h
    exact .inl ⟨l, rfl⟩
  refine .inr ?_
  rcases bind_eq_error.1 h with h | ⟨s, -, h⟩
  · unfold scanner at h
    split at h
    · cases h
    · rename_i f hf
      cases h
      exact .inr (.inr ⟨f, hf, rfl⟩)
  rcases bind_eq_error.1 h with h | ⟨engine, -, h⟩
  · rcases bind_eq_error.1 h with h | ⟨_, -, h⟩
    · obtain ⟨c, -, rfl⟩ := mapError_eq_error.1 h
      exact .inl ⟨c, rfl⟩
    · cases h
  · split at h
    · cases h
      exact .inr (.inl rfl)
    · cases h

/-! ### Kinds of faults -/

namespace Fault

/-- Something is there already. -/
def isTaken : Fault → Bool
  | presetExists .. => true
  | file (.system .entryExists _) => true
  | _ => false

/-- Something is not there. -/
def isMissing : Fault → Bool
  | presetMissing _ => true
  | file (.system .noEntry _) => true
  | file (.missingDirectory _) => true
  | _ => false

/-- A path or a text has a surrogate that cannot be written. -/
def isUnencodable : Fault → Bool
  | file (.unencodable _) => true
  | _ => false

/-- What stops at a surrogate is not about whether something is there. -/
lemma not_taken_of_isUnencodable {e : Fault} (h : e.isUnencodable = true) :
    e.isTaken = false ∧ e.isMissing = false := by
  cases e with
  | file error =>
    cases error with
    | unencodable error => exact ⟨rfl, rfl⟩
    | _ => cases h
  | _ => cases h

/-- What is about something taken is about no surrogate. -/
lemma isUnencodable_of_isTaken {e : Fault} (h : e.isTaken = true) : e.isUnencodable = false := by
  by_contra hsurrogate
  rw [(not_taken_of_isUnencodable (by simpa using hsurrogate)).1] at h
  cases h

/-- What is about something missing is about no surrogate. -/
lemma isUnencodable_of_isMissing {e : Fault} (h : e.isMissing = true) :
    e.isUnencodable = false := by
  by_contra hsurrogate
  rw [(not_taken_of_isUnencodable (by simpa using hsurrogate)).2] at h
  cases h

/-- The fault is neither about whether something is there nor about a surrogate. -/
structure IsOther (e : Fault) : Prop where
  /-- Nothing is in the way. -/
  notTaken : e.isTaken = false
  /-- Nothing is missing. -/
  notMissing : e.isMissing = false
  /-- It is about no surrogate. -/
  notUnencodable : e.isUnencodable = false

end Fault

/-! ### Parts of requests -/

namespace Preset

open Workflow

variable {project name : Text} {context : Context}

/-- Expanding is stopped by the patterns alone. -/
lemma reads_expand (fs : FileSystem) (text : Text) :
    Reads Fault.IsOther (ofReport (expandText fs project context text)) := by
  refine .ofReport fun e he => ?_
  rcases Expand.fault_of_outcome he with ⟨u, -, rfl⟩ | ⟨l, rfl⟩ <;> exact ⟨rfl, rfl, rfl⟩

/-- Compiling is stopped by the files alone, in a project that can be resolved. -/
lemma reads_compile {d : Disk} (hresolves : d.fileSystem.refusal? project = none) (level : Level)
    (files : List Text) :
    Reads Fault.IsOther (ofReport (compileSelection d.fileSystem project context level files)) := by
  refine .ofReport fun e he => ?_
  rcases Compile.fault_of_outcome he with ⟨u, rfl⟩ | ⟨l, rfl⟩ | ⟨c, rfl⟩ | rfl | ⟨f, hf, rfl⟩
  · exact ⟨rfl, rfl, rfl⟩
  · exact ⟨rfl, rfl, rfl⟩
  · exact ⟨rfl, rfl, rfl⟩
  · exact ⟨rfl, rfl, rfl⟩
  · rw [hresolves] at hf
    cases hf

/-- Looking for an entry is not stopped by whether it is there. -/
lemma reads_probe (path : Text) : Reads Fault.IsOther (Workflow.probe path) :=
  .probe (fun _ => ⟨rfl, rfl, rfl⟩) path

/-- Inputs that could leave the project are the only reason not to sort out the files. -/
lemma reads_keepFiles (files : List Text) : Reads Fault.IsOther (keepFiles project files) := by
  induction files with
  | nil => exact .pure _
  | cons file files ih =>
    rw [keepFiles]
    refine .bind (.take fun e he => ?_) fun _ => .bind (reads_probe _) fun kind => ?_
    · obtain ⟨u, -, rfl⟩ := mapError_eq_error.1 he
      exact ⟨rfl, rfl, rfl⟩
    · split
      · exact .bind ih fun _ => .pure _
      · exact .bind (.warn _) fun _ => ih

/-- Compiling the files of a preset is stopped by the files alone, in a project that can be
resolved. -/
lemma ends_compileFiles {d : Disk} (hresolves : d.fileSystem.refusal? project = none)
    (level : Level) (files : List Text) :
    Ends d (compileFiles project context level files) (fun e d' => e.IsOther ∧ d' = d)
      (fun _ d' => d' = d) := by
  unfold compileFiles
  split
  · exact .pure rfl
  · exact .bind_disk (.bind_reads (reads_compile hresolves level files) (fun _ he => ⟨he, rfl⟩)
      fun _ => .pure rfl)

end Preset

end GlobPreset
