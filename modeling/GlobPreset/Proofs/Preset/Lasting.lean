import GlobPreset.Proofs.FileSystem.Clear
import GlobPreset.Proofs.Preset.Leaving
import GlobPreset.Proofs.Preset.Serving

/-!
# What lasts through requests

Whatever is asked for, a disk stays well-formed, directories stay where they are, and no link is
made. This is so on every disk, and also for requests that stop halfway; so what is true of one
request on a well-formed disk is true of each request of a run.

## Main definitions

* `Disk.Lasts` — directories last, and no link is new.
* `Workflow.IsLasting` — a task after which that is so, however it ends.

## Main results

* `Disk.lasts_makeDirectories`, `Disk.lasts_writeText`, `Disk.lasts_unlink` — the changes of a disk.
* `Workflow.IsLasting.bind` — tasks one after the other.
* `Preset.isLasting_perform` — **one request**.
* `Preset.lasts_serve` — **a run of requests**.
-/

set_option autoImplicit false

namespace GlobPreset

namespace Disk

variable {d d' : Disk}

/-- Directories last, and no link is new, on disks that are well-formed. -/
structure Lasts (d d' : Disk) : Prop where
  /-- The disk is well-formed. -/
  wellFormed : d'.WellFormed
  /-- The limits are the same. -/
  limits : d'.limits = d.limits
  /-- Directories are where they were. -/
  directory : ∀ {n : List Text}, d.at? n = some .directory → d'.at? n = some .directory
  /-- Links were there before. -/
  link : ∀ {n : List Text} {target : Text}, d'.at? n = some (.link target) →
    d.at? n = some (.link target)

/-- A well-formed disk lasts as it is. -/
lemma Lasts.refl (h : d.WellFormed) : Lasts d d := ⟨h, rfl, id, id⟩

/-- Lasting is transitive. -/
lemma Lasts.trans {d₁ : Disk} (h : Lasts d d₁) (h' : Lasts d₁ d') : Lasts d d' where
  wellFormed := h'.wellFormed
  limits := h'.limits.trans h.limits
  directory hat := h'.directory (h.directory hat)
  link hat := h.link (h'.link hat)

section Changes

variable (h : d.WellFormed)
include h

/-- **Making directories.** -/
lemma lasts_makeDirectories (path : Text) : Lasts d (d.makeDirectories path).disk where
  wellFormed := h.makeDirectories path
  limits := limits_makeDirectories d path
  directory := (keepsFiles_makeDirectories d path).at?_eq_some
  link {n target} hat := by
    rcases keepsFiles_makeDirectories d path n with hsame | ⟨-, hnew⟩
    · rw [← hsame, hat]
    · rw [hat] at hnew
      cases hnew

/-- **Writing a file**, which takes the place of no directory. -/
lemma lasts_write {path content : Text} (hwrite : d.write path content = .ok d') :
    Lasts d d' := by
  have hwell := h.write hwrite
  rcases cases_of_write hwrite with rfl | ⟨names, rfl, hplace⟩
  · exact .refl h
  have hat : d.at? names ≠ some .directory := by
    rcases hplace with ⟨c, hfile⟩ | hvacant
    · simp [hfile]
    · simp [locate_vacant hvacant]
  have hne : names ≠ [] := by
    rintro rfl
    exact hat rfl
  refine ⟨hwell, rfl, fun {n} hdirectory => ?_, fun {n target} hlink => ?_⟩
  · rw [at?_put_of_ne, hdirectory]
    rintro rfl
    exact hat hdirectory
  · rcases cases_of_at?_put hne hlink with hthere | ⟨-, hfile⟩
    · exact hthere
    · cases hfile

/-- **Writing a text**, whether it fails or not. -/
lemma lasts_writeText (path text : Text) : Lasts d (d.writeText path text).disk := by
  cases hfailure : (d.writeText path text).failure with
  | none => exact lasts_write h (writeText_failure_eq_none.1 hfailure).2
  | some f =>
    rcases writeText_of_failure hfailure with hdisk | ⟨-, hopen⟩
    · rw [hdisk]
      exact .refl h
    · exact lasts_write h hopen

/-- **Removing an entry**, which is no directory. -/
lemma lasts_unlink {path : Text} (hunlink : d.unlink path = .ok d') : Lasts d d' := by
  unfold unlink at hunlink
  split at hunlink
  · cases hunlink
  split at hunlink
  · rename_i names hfound
    split at hunlink
    · cases hunlink
    rename_i hat
    obtain rfl := Except.ok.inj hunlink
    refine ⟨h.erase hat, rfl, fun {n} hdirectory => ?_, fun {n target} hlink => ?_⟩
    · rw [at?_erase_of_ne, hdirectory]
      rintro rfl
      exact hat hdirectory
    · have hn : n ≠ names := by
        rintro rfl
        rw [at?_erase] at hlink
        · cases hlink
        · rintro rfl
          exact hat rfl
      rwa [at?_erase_of_ne hn] at hlink
  · cases hunlink
  · cases hunlink

end Changes

end Disk

namespace Workflow

open Disk

variable {α β : Type}

/-- A task after which directories last, however it ends. -/
def IsLasting (x : Workflow α) : Prop :=
  ∀ d : Disk, d.WellFormed → Ends d x (fun _ => Lasts d) (fun _ => Lasts d)

namespace IsLasting

/-- A task that only reads. -/
lemma of_reads {P : Fault → Prop} {x : Workflow α} (hx : Reads P x) : IsLasting x := by
  refine fun d h => (hx d).mono ?_ ?_
  · rintro e _ ⟨-, rfl⟩
    exact .refl h
  · rintro a _ rfl
    exact .refl h

/-- **One task after the other.** -/
lemma bind {x : Workflow α} {f : α → Workflow β} (hx : IsLasting x) (hf : ∀ a, IsLasting (f a)) :
    IsLasting (x >>= f) :=
  fun d h => .bind (hx d h) fun a _ hfirst => (hf a _ hfirst.wellFormed).mono
    (fun _ _ => hfirst.trans) fun _ _ => hfirst.trans

/-- A result that is made of another one. -/
lemma map {x : Workflow α} (hx : IsLasting x) (f : α → β) :
    IsLasting (x >>= fun a => Pure.pure (f a)) :=
  hx.bind fun _ => of_reads (P := fun _ => True) (.pure _)

end IsLasting

/-- An attempt, whether it fails or not. -/
lemma ends_attempt {d : Disk} {a : Disk.Attempt} {Q : Disk → Prop} (h : Q a.disk) :
    Ends d (attempt a) (fun _ => Q) (fun _ => Q) :=
  .attempt (by split <;> exact h)

/-- A change, whether it is refused or not. -/
lemma ends_change {d : Disk} {next : Except FileError Disk} {Q : Disk → Prop} (hstay : Q d)
    (hnext : ∀ d', next = .ok d' → Q d') : Ends d (change next) (fun _ => Q) (fun _ => Q) where
  stops hs hrun := by
    obtain ⟨f, -, -, rfl⟩ := change_run_error.1 hrun
    rwa [hs]
  succeeds _ hrun := by
    obtain ⟨d', hd', rfl⟩ := change_run.1 hrun
    exact hnext d' hd'

end Workflow

namespace Preset

open Disk Workflow

variable {project name : Text}

/-- Storing a text is lasting. -/
lemma isLasting_store (path text : Text) : IsLasting (store path text) := by
  intro d h
  refine .bind_disk (.bind (ends_attempt (lasts_makeDirectories h _)) fun _ d₁ hmade => ?_)
  exact .bind_disk (ends_attempt (hmade.trans (lasts_writeText hmade.wellFormed _ _)))

/-- Deleting a preset is lasting. -/
lemma isLasting_delete : IsLasting (delete project name) := by
  refine .bind (.of_reads onlyReads_existing) fun path d h => ?_
  exact .bind_disk (ends_change (.refl h) fun d' hunlink => lasts_unlink h hunlink)

/-- Loading a preset leaves the disk. -/
lemma onlyReads_load : OnlyReads (load project name) :=
  .bind onlyReads_existing fun _ => .bind onlyReads_readText fun _ => .pure _

/-- Listing the presets leaves the disk. -/
lemma onlyReads_names : OnlyReads (names project) := by
  refine .bind .get fun d => .bind (onlyReads_take _) fun directory => ?_
  refine .bind (onlyReads_probe _) fun kind => ?_
  split
  · exact .pure _
  · exact .bind (onlyReads_take _) fun _ => .pure _

/-- **What lasts through one request**, whether it fails or not. -/
theorem isLasting_perform (request : Request) : IsLasting (request.perform project) := by
  cases request with
  | save now name patterns overwrite origin =>
    exact .map (fun d h => ends_save_of_store (fun _ => .refl h)
      fun _ _ _ _ => isLasting_store _ _ d h) _
  | create now name inputs level context =>
    exact .map (fun d h => ends_create_of_store (fun _ => .refl h)
      fun _ _ _ _ => isLasting_store _ _ d h) _
  | delete name => exact isLasting_delete.map _
  | load name => exact .map (.of_reads onlyReads_load) _
  | list => exact .map (.of_reads onlyReads_names) _
  | renew now name level write context =>
    exact .map (fun d h => ends_renew_of_write (fun _ => .refl h) (.refl h)
      fun _ _ _ _ _ => ends_attempt (lasts_writeText h _ _)) _

/-- **What lasts through a run of requests**: the disk stays well-formed, all directories stay, and
no link is made.

**Proof sketch.** Induction on the requests. Each of them is performed on the well-formed disk that
the ones before it left, and whether it fails or not does not matter for what is left. -/
theorem lasts_serve (requests : List Request) : ∀ {s : Session}, s.disk.WellFormed →
    Lasts s.disk (serve project requests s).2.disk := by
  induction requests with
  | nil => exact fun h => .refl h
  | cons request requests ih =>
    intro s h
    have hfirst : Lasts s.disk ((request.perform project).run s).2.disk := by
      have hends : Ends _ (request.perform project) _ _ := isLasting_perform request s.disk h
      rcases hrun : (request.perform project).run s with ⟨reply, s'⟩
      cases reply with
      | error e => exact hends.stops rfl hrun
      | ok reply => exact hends.succeeds rfl hrun
    exact hfirst.trans (ih hfirst.wellFormed)

end Preset

end GlobPreset
