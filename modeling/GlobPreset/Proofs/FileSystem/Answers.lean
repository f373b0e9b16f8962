import GlobPreset.Compile
import GlobPreset.Proofs.FileSystem.Survey

/-!
# Results depend on answers alone

Two file systems that answer every question alike, listings put in order, expand every list and
compile every selection alike: neither the order of a listing nor anything that is not asked for
can be seen in a result.

## Main definitions

* `FileSystem.SameAnswers` — two file systems answer alike, listings in order.

## Main results

* `FileSystem.sortBy_entryOrder_eq_of_perm` — entries of different names are put in one order.
* `FileSystem.SameAnswers.files_eq`, `FileSystem.SameAnswers.visit_eq` — walks and scans agree.
* `FileSystem.SameAnswers.expand_eq`, `FileSystem.SameAnswers.compile_eq` — **expansion and
  compilation agree**.
-/

set_option autoImplicit false

namespace GlobPreset.FileSystem

/-- Two file systems answer alike, listings in order. -/
structure SameAnswers (fs fs' : FileSystem) : Prop where
  /-- They list the same entries. -/
  sortedList : fs'.sortedList = fs.sortedList
  /-- They resolve paths alike. -/
  realPath : fs'.realPath = fs.realPath
  /-- They refuse the same paths. -/
  refusal? : fs'.refusal? = fs.refusal?
  /-- Paths lead to what is of the same kind. -/
  kind? : fs'.kind? = fs.kind?
  /-- They are equally deep. -/
  depthBound : fs'.depthBound = fs.depthBound

/-- **Entries of different names are put in one order**, whatever the order they come in. -/
lemma sortBy_entryOrder_eq_of_perm {entries entries' : List Entry} (h : entries'.Perm entries)
    (hnames : (entries.map Entry.name).Nodup) :
    sortBy entryOrder entries' = sortBy entryOrder entries := by
  refine List.Perm.eq_of_pairwise (fun a b ha hb hab hba => ?_) (entryOrder_pairwise _)
    (entryOrder_pairwise _) (((sortBy_perm _ _).trans h).trans (sortBy_perm _ _).symm)
  exact List.inj_on_of_nodup_map hnames (h.mem_iff.1 (mem_sortBy.1 ha)) (mem_sortBy.1 hb)
    (Text.le_antisymm hab hba)

namespace SameAnswers

variable {fs fs' : FileSystem} (h : fs.SameAnswers fs')
include h

/-! ### Walks and expansion -/

/-- Walks through a directory agree. -/
lemma below_eq (ignore : IgnoreRules) {fuel : Nat} : ∀ {above : List Text} {path location : Text},
    Walk.below fs' ignore fuel above path location =
      Walk.below fs ignore fuel above path location := by
  induction fuel with
  | zero => exact fun {_ _ _} => rfl
  | succ fuel ih =>
    intro above path location
    simp only [Walk.below, h.sortedList, h.realPath, ih]

/-- **Walks agree.** -/
lemma files_eq (ignore : IgnoreRules) (root base : Text) :
    Walk.files fs' ignore root base = Walk.files fs ignore root base := by
  simp only [Walk.files, Walk.start, isFile, isDirectory, h.kind?, h.depthBound,
    h.below_eq ignore]
  rfl

/-- **Expansions agree.** -/
theorem expand_eq (root : Text) (context : Context) (list : PatternList) :
    Expand.outcome fs' root context list = Expand.outcome fs root context list := by
  have hgroups : ∀ ignore, Expand.groupFiles fs' root ignore context.policy =
      Expand.groupFiles fs root ignore context.policy := by
    intro ignore
    funext g
    simp only [Expand.groupFiles, h.files_eq]
  simp only [Expand.outcome, hgroups]

/-! ### Scans and compilation -/

/-- Entries mean the same. -/
lemma inspect_eq (s : Scanner) (hs : s.fs = fs) (directory : Text) (e : Entry) :
    ({ s with fs := fs' } : Scanner).inspect directory e = s.inspect directory e := by
  subst hs
  simp only [Scanner.inspect, Scanner.isIgnored, Scanner.isInside, Scanner.realRoot, h.realPath]
  rfl

/-- Going through entries finds the same. -/
lemma through_eq (s : Scanner) (hs : s.fs = fs) (child : Text → Scanner.Result)
    (directory : Text) (entries : List Entry) :
    ({ s with fs := fs' } : Scanner).through child directory entries =
      s.through child directory entries := by
  induction entries with
  | nil => rfl
  | cons e rest ih => simp only [Scanner.through, h.inspect_eq s hs, ih]

/-- Directories are misplaced alike. -/
lemma misplaced?_eq (s : Scanner) (hs : s.fs = fs) (directory : Text) :
    ({ s with fs := fs' } : Scanner).misplaced? directory = s.misplaced? directory := by
  subst hs
  simp only [Scanner.misplaced?, Scanner.isInside, Scanner.realRoot, h.realPath]
  rfl

/-- **Scans agree.** -/
lemma visit_eq (s : Scanner) (hs : s.fs = fs) (fuel : Nat) :
    ({ s with fs := fs' } : Scanner).visit fuel = s.visit fuel := by
  induction fuel with
  | zero => rfl
  | succ fuel ih =>
    funext directory
    have hmisplaced := h.misplaced?_eq s hs directory
    have hthrough := h.through_eq s hs
    subst hs
    simp only [Scanner.visit, isDirectory, h.kind?, h.sortedList, ih, hmisplaced, hthrough]
    rfl

/-- The scans that are asked for agree. -/
lemma scan?_eq (s : Scanner) (hs : s.fs = fs) :
    ({ s with fs := fs' } : Scanner).scan? = s.scan? := by
  funext directory
  subst hs
  simp only [Scanner.scan?, Scanner.request, h.depthBound, h.visit_eq s rfl]

/-- **Compilations agree.** -/
theorem compile_eq (root : Text) (context : Context) (level : Level) (selection : List Text) :
    Compile.outcome fs' root context level selection =
      Compile.outcome fs root context level selection := by
  have hengine : ∀ (ignore : IgnoreRules) (keys paths : List Text),
      Compile.engine ⟨fs', root, keys, ignore, context.policy⟩ context paths =
        Compile.engine ⟨fs, root, keys, ignore, context.policy⟩ context paths := by
    intro ignore keys paths
    have hscan := h.scan?_eq ⟨fs, root, keys, ignore, context.policy⟩ rfl
    simp only [Compile.engine, hscan]
  unfold Compile.outcome
  congr 1
  funext paths
  split
  · rfl
  congr 1
  funext ignore
  simp only [Compile.scanner, h.refusal?]
  cases fs.refusal? root with
  | none =>
    simp only [bind, Except.bind, hengine]
  | some e => rfl

end SameAnswers

end GlobPreset.FileSystem
