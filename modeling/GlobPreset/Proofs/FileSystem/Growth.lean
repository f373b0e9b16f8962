import GlobPreset.Proofs.FileSystem.Opening

/-!
# Disks that grow

When entries are added to a disk, a path that led somewhere leads there still, and one that failed
for another reason than a missing entry fails as it did. Only a path that ended where nothing was
may lead somewhere now.

## Main definitions

* `Disk.Grows` — every entry is kept.

## Main results

* `Disk.Grows.find_eq`, `Disk.Grows.probe_eq` — **what is found stays**, unless an entry was
  missing.
-/

set_option autoImplicit false

namespace GlobPreset.Disk

open GlobPreset.Path Location

variable {d d' : Disk}

/-- Every entry is kept. -/
structure Grows (d d' : Disk) : Prop where
  /-- The limits are the same. -/
  limits : d'.limits = d.limits
  /-- What is there stays. -/
  kept : ∀ {names : List Text} {node : DiskNode}, d.at? names = some node →
    d'.at? names = some node

/-- A way ends where an entry is missing. -/
def Passage.IsMissing : Passage → Prop
  | vacant _ => True
  | failed .noEntry => True
  | _ => False

namespace Grows

/-- A disk has grown by nothing. -/
lemma refl (d : Disk) : Grows d d := ⟨rfl, id⟩

/-- Growing twice is growing. -/
lemma trans {d₁ d₂ : Disk} (h : Grows d d₁) (h' : Grows d₁ d₂) : Grows d d₂ :=
  ⟨h'.limits.trans h.limits, fun hat => h'.kept (h.kept hat)⟩

/-- A new entry. -/
lemma put {names : List Text} (hat : d.at? names = none) (node : DiskNode) :
    Grows d (d.put names node) where
  limits := rfl
  kept {other _} hother := by
    have hne : other ≠ names := by
      rintro rfl
      rw [hat] at hother
      cases hother
    rw [at?_put_of_ne hne, hother]

/-- Making directories. -/
lemma of_keepsFiles (h : KeepsFiles d d') (hlimits : d'.limits = d.limits) : Grows d d' :=
  ⟨hlimits, h.at?_eq_some⟩

variable (h : Grows d d')
include h

/-- A way stays. -/
lemma way {links : Nat} {current segs last : List Text} (hway : Way d links current segs last) :
    Way d' links current segs last :=
  hway.mono h.limits fun _ _ hat _ => h.kept hat

/-- The limits of names are the same. -/
lemma refusesName_eq (name : Text) : d'.refusesName name = d.refusesName name := by
  rw [refusesName, refusesName, h.limits]

/-- The limits of paths are the same. -/
lemma refusesPath_eq (path : Text) : d'.refusesPath path = d.refusesPath path := by
  rw [refusesPath, refusesPath, h.limits]

/-- A way without links ends as it did, unless an entry was missing. -/
lemma pass_eq (aim : Aim) (segs : List Text) : ∀ current : List Text,
    ¬ (d.pass aim current segs).IsMissing → d'.pass aim current segs = d.pass aim current segs := by
  induction segs with
  | nil => exact fun _ _ => rfl
  | cons s segs ih =>
    intro current hends
    rw [pass] at hends
    rw [pass, pass, h.refusesName_eq]
    by_cases hstay : s = [] ∨ s = [.of '.']
    · rw [if_pos hstay] at hends ⊢
      rw [if_pos hstay, ih _ hends]
    rw [if_neg hstay] at hends
    rw [if_neg hstay, if_neg hstay]
    by_cases hback : s = [.of '.', .of '.']
    · rw [if_pos hback] at hends ⊢
      rw [if_pos hback, ih _ hends]
    rw [if_neg hback] at hends
    rw [if_neg hback, if_neg hback]
    by_cases hslash : aim = .content ∧ segs ≠ [] ∧ segs.all List.isEmpty = true
    · rw [if_pos hslash, if_pos hslash]
    rw [if_neg hslash] at hends
    rw [if_neg hslash, if_neg hslash]
    by_cases hlong : d.refusesName s = true
    · rw [if_pos hlong, if_pos hlong]
    rw [if_neg hlong] at hends
    rw [if_neg hlong, if_neg hlong]
    dsimp only at hends ⊢
    cases hat : d.at? (current ++ [s]) with
    | none =>
      rw [hat] at hends
      exact absurd (by dsimp only; split <;> trivial) hends
    | some node =>
      rw [hat] at hends
      rw [h.kept hat]
      cases node with
      | directory => exact ih _ hends
      | link target => rfl
      | file content => rfl
      | special => rfl

/-- A way that is not cut short by a missing entry is the same on a disk that has grown. -/
lemma passWithin_eq (aim : Aim) (links : Nat) : ∀ current segs : List Text,
    ¬ (d.passWithin aim links current segs).IsMissing →
      d'.passWithin aim links current segs = d.passWithin aim links current segs := by
  -- a link that is met is met again, and what comes behind it is followed with a link less
  have hpass : ∀ current segs : List Text, ∀ {directory target pending},
      d.pass aim current segs = .atLink directory target pending →
        d'.pass aim current segs = .atLink directory target pending := by
    intro current segs directory target pending hlink
    rw [h.pass_eq aim segs current (by rw [hlink]; exact id), hlink]
  induction links with
  | zero =>
    intro current segs hends
    rw [passWithin] at hends ⊢
    rw [passWithin]
    split at hends
    · rename_i hlink
      rw [hpass _ _ hlink]
    · rename_i hother
      rw [h.pass_eq aim segs current hends]
      split
      · exact absurd ‹_› (hother _ _ _)
      · rfl
  | succ links ih =>
    intro current segs hends
    rw [passWithin] at hends ⊢
    rw [passWithin]
    split at hends
    · rename_i hlink
      rw [hpass _ _ hlink]
      exact ih _ _ hends
    · rename_i hother
      rw [h.pass_eq aim segs current hends]
      split
      · exact absurd ‹_› (hother _ _ _)
      · rfl

/-- A path that does not end at a missing entry leads to the same place on a disk that has grown. -/
lemma locate_eq {aim : Aim} {path : Text} (hends : ¬ (d.locate aim path).IsMissing) :
    d'.locate aim path = d.locate aim path := by
  unfold locate at hends ⊢
  rw [h.refusesPath_eq]
  split
  · rfl
  rename_i hne
  split
  · rfl
  rename_i hfits
  rw [if_neg hne, if_neg hfits] at hends
  exact h.passWithin_eq aim maxLinks [] _ hends

/-- **What is found stays**, and so does why nothing is, unless an entry was missing. -/
theorem find_eq {path : Text} (hfind : d.find path ≠ .error .noEntry) :
    d'.find path = d.find path := by
  have hends : ¬ (d.locate .target path).IsMissing := by
    intro hmissing
    refine hfind ?_
    unfold find
    split
    · rename_i hfound
      rw [hfound] at hmissing
      exact hmissing.elim
    · rename_i e hfailed
      rw [hfailed] at hmissing
      cases e <;> first | rfl | exact hmissing.elim
    · rfl
  unfold find at hfind ⊢
  rw [h.locate_eq hends]
  split
  · rename_i names hfound
    simp only [hfound] at hfind
    cases hat : d.at? names with
    | none =>
      rw [hat] at hfind
      exact absurd rfl hfind
    | some node => rw [h.kept hat]
  · rfl
  · rfl

/-- The kind of what is found stays. -/
lemma probe_eq {path : Text} (hfind : d.find path ≠ .error .noEntry) :
    d'.probe path = d.probe path := by
  rw [probe, probe, h.find_eq hfind]

end Grows

end GlobPreset.Disk
