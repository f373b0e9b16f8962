import GlobPreset.Proofs.Compile.Compactness
import GlobPreset.Proofs.Compile.RoundTrip

/-!
# Selections in several spellings

Where letter case does not count, selected paths that are compared alike are taken for one path, of
which the first in order stands for all. A project, however, is asked for files by the names that it
has. So a selected file comes back from compiling and expanding if it is the first spelling of its
key, no two paths of the project are compared alike, and folding keeps the lengths of names. None of
the three conditions can be left out.

## Main definitions

* `Compile.roundTrip` — compiling a selection and expanding what is stored.
* `Compile.IsFirstSpelling` — the first in order of the paths that are compared alike with it.

## Main results

* `Compile.mem_roundTrip` — **no selected file is lost** that is the first spelling of its key.
* `Compile.roundTrip_eq` — **selected files come back** from a project whose paths are told apart.
* `Compile.not_mem_roundTrip` — a second spelling is lost.
-/

set_option autoImplicit false

namespace GlobPreset.Compile

open GlobPreset.Path

variable {context : Context} {ignore : IgnoreRules} {selection paths : List Text}

/-! ### First spellings -/

/-- The first in order of the paths that are compared alike with it. -/
def IsFirstSpelling (policy : CasePolicy) (paths : List Text) (f : Text) : Prop :=
  f ∈ paths ∧ ∀ g ∈ paths, policy.key g = policy.key f → Text.le f g = true

instance (policy : CasePolicy) (paths : List Text) (f : Text) :
    Decidable (IsFirstSpelling policy paths f) :=
  inferInstanceAs (Decidable (_ ∧ ∀ g ∈ paths, _))

/-- **The first spelling of a key is kept.** -/
lemma IsFirstSpelling.mem_distinctPaths {policy : CasePolicy}
    (hsorted : paths.Pairwise (fun s t => Text.le s t = true)) {f : Text}
    (h : IsFirstSpelling policy paths f) : f ∈ distinctPaths policy paths := by
  cases policy with
  | sensitive => exact h.1
  | insensitive =>
    change f ∈ distinctPaths.go paths
    induction paths with
    | nil => exact h.1
    | cons p rest ih =>
      obtain ⟨hp, hrest⟩ := List.pairwise_cons.1 hsorted
      by_cases hfirst : f = p
      · exact hfirst ▸ List.mem_cons_self
      have hmem : f ∈ rest := (List.mem_cons.1 h.1).resolve_left hfirst
      have hkept := ih hrest ⟨hmem, fun g hg => h.2 g (List.mem_cons_of_mem p hg)⟩
      refine List.mem_cons_of_mem p (List.mem_filter.2 ⟨hkept, decide_eq_true fun hkey => ?_⟩)
      -- the path in front would be a spelling in front
      exact hfirst (Text.le_antisymm (h.2 p List.mem_cons_self hkey.symm) (hp f hmem))

/-- A normalized selection is in order and without duplicates. -/
lemma normalize_spec (h : Selection.normalize selection = .ok paths) :
    paths.Pairwise (fun s t => Text.le s t = true) ∧ paths.Nodup := by
  unfold Selection.normalize at h
  cases hsafe : selection.forM (checkSafe Selection.role) with
  | error e =>
    rw [hsafe] at h
    cases h
  | ok _ =>
    rw [hsafe] at h
    cases h
    exact ⟨Text.sort_pairwise _, Text.nodup_sort.2 (nodup_dedupe _)⟩

/-! ### The round trip -/

/-- Compiles a selection and expands what is stored. -/
def roundTrip (fs : FileSystem) (root : Text) (context : Context) (level : Level)
    (selection : List Text) : Except Fault (List Text) := do
  let c ← (compileSelection fs root context level selection).outcome
  (expandText fs root context c.toText).outcome

/-- What comes back is what the stored form of the compilation is expanded to. -/
lemma roundTrip_eq_of_ok {fs : FileSystem} {root : Text} {level : Level} {c : Compilation}
    {files : List Text}
    (hc : (compileSelection fs root context level selection).outcome = .ok c)
    (hfiles : (expandText fs root context c.toText).outcome = .ok files) :
    roundTrip fs root context level selection = .ok files := by
  rw [roundTrip, hc]
  exact hfiles

/-- **No selected file is lost.** In a memory tree whose locations are told apart, every file that a
normalized selection of ordinary paths holds in its first spelling comes back from compiling and
expanding, whatever else is selected, if no selected path leads to another one.

**Proof sketch.** The first spellings are what is compiled. The run of the best plan accounts for
the files among them, since a file of a scan that is compared alike with one of them is that file;
leaving out redundant patterns keeps what they stand for, since a directory that leads a path as far
as keys tell leads it. -/
theorem mem_roundTrip {t : MemoryTree} (ht : t.WellFormed)
    (hord : t.fileSystem.HasOrdinaryFiles t.root.toText) (hapart : t.IsToldApart context.policy)
    (hignore : context.ignoreRules = .ok ignore)
    (hnormal : Selection.normalize selection = .ok paths) (hpaths : ∀ p ∈ paths, IsOrdinary p)
    (hfree : SelectionTree.IsPrefixFree (paths.map segments)) (level : Level) {f : Text}
    (hf : IsFirstSpelling context.policy paths f)
    (hfile : t.fileSystem.HasFile t.root.toText f) :
    ∃ files, roundTrip t.fileSystem t.root.toText context level selection = .ok files ∧
      f ∈ files := by
  obtain ⟨hsorted, hnodup⟩ := normalize_spec hnormal
  have hkept := hf.mem_distinctPaths hsorted
  have hof : pathsOf context selection = .ok (distinctPaths context.policy paths) := by
    rw [pathsOf, hnormal]
    rfl
  obtain ⟨c, hc, hlines, hreadable, hselects, -⟩ :=
    outcome_of_paths (MemoryTree.isProject ht ht.root) hord rfl (hapart.fileSystem ht ht.root)
      hignore hof (areDistinct_distinctPaths hnodup hpaths hfree) (List.ne_nil_of_mem hkept) level
  have hselected := hselects f hkept hfile
  have hincludes : (PatternList.ofRaw c.patterns).includes ≠ [] := by
    obtain ⟨⟨p, hp, -⟩, -⟩ := hselected
    exact List.ne_nil_of_mem hp
  obtain ⟨files, hfiles, -, -, hmem⟩ := Expand.outcome_eq_ok hignore hreadable
  exact ⟨files, roundTrip_eq_of_ok hc ((expandText_toText hlines hincludes).trans hfiles),
    (hmem f).2 hselected⟩

/-- **Selected files come back** and nothing else does, in a memory tree whose locations are told
apart. -/
theorem roundTrip_eq {t : MemoryTree} (ht : t.WellFormed)
    (hord : t.fileSystem.HasOrdinaryFiles t.root.toText) (hapart : t.IsToldApart context.policy)
    (hignore : context.ignoreRules = .ok ignore)
    (hsel : t.fileSystem.IsSelection t.root.toText selection) (level : Level) :
    roundTrip t.fileSystem t.root.toText context level selection =
      .ok (Text.sort (dedupe selection)) := by
  obtain ⟨c, hc, hexpand⟩ := expand_compileSelection_of_isToldApart ht hord
    (hapart.fileSystem ht ht.root) hignore hsel level
  exact roundTrip_eq_of_ok hc hexpand

/-! ### What cannot be left out -/

/-- **A second spelling is lost**: of a file and a path in capitals that is none, the path is
compiled, and no file is found by it. -/
theorem not_mem_roundTrip :
    ¬ ∀ (t : MemoryTree) (context : Context) (ignore : IgnoreRules) (selection paths : List Text)
      (level : Level) (f : Text), t.WellFormed →
      t.fileSystem.HasOrdinaryFiles t.root.toText → t.IsToldApart context.policy →
      context.ignoreRules = .ok ignore → Selection.normalize selection = .ok paths →
      (∀ p ∈ paths, IsOrdinary p) → SelectionTree.IsPrefixFree (paths.map segments) →
      f ∈ paths → t.fileSystem.HasFile t.root.toText f →
      ∃ files, roundTrip t.fileSystem t.root.toText context level selection = .ok files ∧
        f ∈ files := by
  intro hall
  let t : MemoryTree := .build "/p".toText [.file "a".toText []]
  have ht : t.WellFormed := MemoryTree.wellFormed_build rfl _ (by decide +kernel)
  have hord : t.fileSystem.HasOrdinaryFiles t.root.toText :=
    MemoryTree.IsOrdinary.hasOrdinaryFiles ht (by decide +kernel) (by decide +kernel)
  obtain ⟨files, hfiles, hmem⟩ := hall t foldingContext ⟨[[.of 'o']], ⟨[]⟩⟩ ["A".toText, "a".toText]
    ["A".toText, "a".toText] .balanced "a".toText ht hord (by decide +kernel) rfl
    (by decide +kernel) (by decide +kernel) (by decide +kernel) (by decide +kernel)
    ⟨IsOrdinary.isPlain (by decide), by decide +kernel⟩
  have hnone : roundTrip t.fileSystem t.root.toText foldingContext .balanced
      ["A".toText, "a".toText] = .ok [] := by decide +kernel
  rw [Except.ok.inj (hfiles.symm.trans hnone)] at hmem
  cases hmem

/-- Two directories that are compared alike: the pattern of one stands for the file of the other. -/
example :
    let t : MemoryTree := .build "/p".toText [.file "s/a".toText [], .file "s/c".toText [],
      .file "s/d".toText [], .file "S/b".toText []]
    roundTrip t.fileSystem t.root.toText foldingContext .balanced
        ["s/a".toText, "s/c".toText, "s/d".toText, "S/b".toText] =
      .ok ["s/a".toText, "s/c".toText, "s/d".toText] := by
  decide +kernel

/-- A name that folding makes longer: an ignored name below it is not seen. -/
example :
    let t : MemoryTree := .build "/p".toText [.file "ß/a".toText [], .file "ß/c".toText [],
      .file "ß/d".toText [], .file "ß/o/b".toText []]
    roundTrip t.fileSystem t.root.toText foldingContext .balanced
        ["ß/a".toText, "ß/c".toText, "ß/d".toText, "ß/o/b".toText] =
      .ok ["ß/a".toText, "ß/c".toText, "ß/d".toText] := by
  decide +kernel

end GlobPreset.Compile
