import GlobPreset.Proofs.Collapse.Steps
import GlobPreset.Proofs.FileSystem.Listed
import GlobPreset.Proofs.FileSystem.Survey
import GlobPreset.Proofs.Pattern.Spelling

/-!
# No line feeds in the patterns of a run

The patterns of a run are put together from the paths of the selection, from names that are listed,
and from the signs of globs. Where neither the selection nor a listed name has a line feed, no
pattern has one, whatever else the file system answers.

## Main definitions

* `SelectionTree.HasNames` — every name of a tree is of some kind.
* `Engine.IsFeedFree` — a selection and scans without line feeds.

## Main results

* `SelectionTree.exists_names_of_mem_deepestFirst` — a directory of a tree is given by its names.
* `Scanner.exists_names_of_visit` — a file of a scan is its directory, continued by listed names.
* `Engine.not_mem_run` — **the patterns of a run have no line feeds**.
-/

set_option autoImplicit false

namespace GlobPreset

open GlobPreset.Path Text

/-! ### Trees -/

namespace SelectionTree

variable {IsGood : Text → Prop} {name : Text}

/-- Every name of the tree is of this kind. -/
def HasNames (IsGood : Text → Prop) : SelectionTree → Prop
  | empty => True
  | directory name children others =>
    IsGood name ∧ HasNames IsGood children ∧ HasNames IsGood others
  | file name others => IsGood name ∧ HasNames IsGood others

/-- A subdirectory of a tree of good names has good names. -/
lemma HasNames.of_childrenOf? {tree children : SelectionTree} (h : tree.HasNames IsGood)
    (hchildren : tree.childrenOf? name = some children) : children.HasNames IsGood := by
  induction tree with
  | empty => cases hchildren
  | directory n inner others _ ih =>
    rw [childrenOf?] at hchildren
    split at hchildren
    · cases hchildren
      exact h.2.1
    · exact ih h.2.2 hchildren
  | file n others ih => exact ih h.2 hchildren

/-- A new file of a good name keeps the names good. -/
lemma HasNames.putFile {tree : SelectionTree} (h : tree.HasNames IsGood) (hname : IsGood name) :
    (tree.putFile name).HasNames IsGood := by
  induction tree with
  | empty => exact ⟨hname, h⟩
  | directory n children others _ ih => exact ⟨h.1, h.2.1, ih h.2.2⟩
  | file n others ih =>
    unfold SelectionTree.putFile
    split
    · exact h
    · split
      · exact ⟨hname, h⟩
      · exact ⟨h.1, ih h.2⟩

/-- A directory of a good name, put in with a tree of good names, keeps the names good. -/
lemma HasNames.putDirectory {tree children : SelectionTree} (h : tree.HasNames IsGood)
    (hname : IsGood name) (hchildren : children.HasNames IsGood) :
    (SelectionTree.putDirectory name children tree).HasNames IsGood := by
  induction tree with
  | empty => exact ⟨hname, hchildren, h⟩
  | file n others _ => exact ⟨hname, hchildren, h⟩
  | directory n inner others _ ih =>
    unfold SelectionTree.putDirectory
    split
    · exact ⟨hname, hchildren, h.2.2⟩
    · split
      · exact ⟨hname, hchildren, h⟩
      · exact ⟨h.1, h.2.1, ih h.2.2⟩

/-- An addition brings the names of its path. -/
lemma HasNames.insertNames {names : List Text} (hnames : ∀ s ∈ names, IsGood s) :
    ∀ {tree tree' : SelectionTree}, tree.HasNames IsGood →
      SelectionTree.insertNames names tree = .ok tree' → tree'.HasNames IsGood := by
  induction names with
  | nil =>
    intro tree tree' h hinsert
    cases hinsert
    exact h
  | cons name names ih =>
    intro tree tree' h hinsert
    have hname := hnames name List.mem_cons_self
    cases names with
    | nil =>
      rw [SelectionTree.insertNames] at hinsert
      split at hinsert
      · cases hinsert
      · cases hinsert
        exact h.putFile hname
    | cons next names =>
      rw [SelectionTree.insertNames] at hinsert
      split at hinsert
      · cases hinsert
      have hinner : ((tree.childrenOf? name).getD empty).HasNames IsGood := by
        cases hsome : tree.childrenOf? name with
        | none => trivial
        | some children => exact h.of_childrenOf? hsome
      cases hnext : SelectionTree.insertNames (next :: names)
          ((tree.childrenOf? name).getD empty) with
      | error blocking => simp [hnext, bind, Except.bind] at hinsert
      | ok children =>
        simp only [hnext, bind, Except.bind, pure, Except.pure, Except.ok.injEq] at hinsert
        subst hinsert
        exact h.putDirectory hname
          (ih (fun s hs => hnames s (List.mem_cons_of_mem name hs)) hinner hnext)

/-- The names of the tree of some paths are names of these paths. -/
lemma hasNames_ofPaths {paths : List Text} (hpaths : ∀ p ∈ paths, ∀ s ∈ names p, IsGood s)
    {tree : SelectionTree} (h : ofPaths paths = .ok tree) : tree.HasNames IsGood := by
  suffices hfold : ∀ {paths : List Text} {start tree : SelectionTree},
      (∀ p ∈ paths, ∀ s ∈ names p, IsGood s) → start.HasNames IsGood →
      paths.foldlM insert start = .ok tree → tree.HasNames IsGood from
    hfold hpaths (show empty.HasNames IsGood from trivial) h
  intro paths
  induction paths with
  | nil =>
    intro start tree _ hstart h
    cases h
    exact hstart
  | cons p paths ih =>
    intro start tree hpaths hstart h
    rw [List.foldlM_cons] at h
    cases hinsert : insertNames (names p) start with
    | error blocking => simp [insert, hinsert, bind, Except.bind] at h
    | ok next =>
      simp only [insert, hinsert, bind, Except.bind] at h
      have hnext := hstart.insertNames (hpaths p List.mem_cons_self) hinsert
      exact ih (fun q hq => hpaths q (List.mem_cons_of_mem p hq)) hnext h

/-- The path of a node is made of good names behind the path that it is listed below. -/
lemma HasNames.exists_of_mem_nodesBelow {tree : SelectionTree} (h : tree.HasNames IsGood) :
    ∀ {above : Text}, ∀ n ∈ nodesBelow above tree,
      ∃ names : List Text, (∀ s ∈ names, IsGood s) ∧ n.path = names.foldl join above := by
  induction tree with
  | empty => exact fun n hn => absurd hn List.not_mem_nil
  | directory name children others ihchildren ihothers =>
    intro above n hn
    rcases List.mem_cons.1 hn with rfl | hn
    · exact ⟨[name], List.forall_mem_singleton.2 h.1, rfl⟩
    · rcases List.mem_append.1 hn with hn | hn
      · obtain ⟨names, hnames, hpath⟩ := ihchildren h.2.1 n hn
        exact ⟨name :: names, List.forall_mem_cons.2 ⟨h.1, hnames⟩, hpath⟩
      · exact ihothers h.2.2 n hn
  | file name others ih =>
    intro above n hn
    rcases List.mem_cons.1 hn with rfl | hn
    · exact ⟨[name], List.forall_mem_singleton.2 h.1, rfl⟩
    · exact ih h.2 n hn

/-- **A directory of a tree is given by its names.** -/
theorem exists_names_of_mem_deepestFirst {paths : List Text}
    (hpaths : ∀ p ∈ paths, ∀ s ∈ names p, IsGood s) {tree : SelectionTree}
    (h : ofPaths paths = .ok tree) {d : Text} (hd : d ∈ tree.deepestFirst) :
    ∃ names : List Text, (∀ s ∈ names, IsGood s) ∧ d = names.foldl join [] := by
  rw [deepestFirst, mem_sortBy, directories, List.mem_map] at hd
  obtain ⟨n, hn, rfl⟩ := hd
  exact (hasNames_ofPaths hpaths h).exists_of_mem_nodesBelow n (List.mem_of_mem_filter hn)

end SelectionTree

/-! ### Scans -/

namespace Scanner

variable {s : Scanner} {IsGood : Text → Prop}

/-- **A file of a scan is its directory, continued by listed names.** -/
theorem exists_names_of_visit (hs : s.fs.Lists IsGood) :
    ∀ {fuel : Nat} {directory : Text} {scan : DirectoryScan},
      (s.visit fuel directory).scan = some scan → ∀ f ∈ scan.files,
        ∃ names : List Text, (∀ n ∈ names, IsGood n) ∧ f = names.foldl join directory := by
  intro fuel
  induction fuel with
  | zero =>
    intro directory scan h
    cases h
  | succ fuel ih =>
    intro directory scan h f hf
    obtain ⟨-, -, entries, t, hlist, ht, rfl⟩ := visit_spec h
    obtain ⟨hfiles, -, -⟩ := through_tally ht
    rw [ofTally] at hf
    rw [mem_sort, hfiles] at hf
    obtain ⟨e, he, hf⟩ := List.mem_flatMap.1 hf
    have hname : IsGood e.name := hs _ entries hlist e (mem_sortBy.1 he)
    unfold contribution at hf
    split at hf
    · exact ⟨[e.name], List.forall_mem_singleton.2 hname, List.mem_singleton.1 hf⟩
    · cases hsub : (s.visit fuel (join directory e.name)).scan with
      | none => simp [hsub] at hf
      | some sub =>
        simp only [hsub, Option.map_some, Option.getD_some] at hf
        obtain ⟨names, hnames, rfl⟩ := ih hsub f hf
        exact ⟨e.name :: names, List.forall_mem_cons.2 ⟨hname, hnames⟩, rfl⟩
    · cases hf

end Scanner

/-! ### Runs -/

namespace Engine

variable {e : Engine}

/-- A selection and scans without line feeds. -/
structure IsFeedFree (e : Engine) : Prop where
  /-- No selected file has a line feed. -/
  selection : ∀ f ∈ e.selection, .of '\n' ∉ f
  /-- No directory of the selection has one. -/
  candidates : ∀ d ∈ e.candidates, .of '\n' ∉ d
  /-- No file of a scan has one, unless its directory has. -/
  scan : ∀ {d scan}, .of '\n' ∉ d → e.scan? d = some scan → ∀ f ∈ scan.files, .of '\n' ∉ f

/-- Escaping brings no line feed into a path. -/
lemma not_mem_escapeLiteral {path : Text} (h : .of '\n' ∉ path) :
    .of '\n' ∉ Pattern.escapeLiteral path := by
  intro hc
  rcases (Pattern.spells_escapeLiteral path).mem_or hc with hc | hc
  · exact h hc
  · exact absurd hc (by decide)

/-- The pattern of a directory has no line feed unless the directory has one. -/
lemma not_mem_directoryPattern {directory : Text} (h : .of '\n' ∉ directory) :
    .of '\n' ∉ directoryPattern directory := by
  rw [directoryPattern, List.mem_append, not_or]
  exact ⟨not_mem_escapeLiteral h, by decide⟩

/-- The parent of a path has no line feed unless the path has one. -/
lemma not_mem_parent {path : Text} (h : .of '\n' ∉ path) : .of '\n' ∉ parent path := by
  unfold parent
  split
  · rename_i before behind hsplit
    rw [(splitLast?_eq_some.1 hsplit).1] at h
    exact fun hc => h (List.mem_append_left _ hc)
  · simp

/-- **The patterns of a proposal have no line feeds.** -/
theorem Proposes.not_mem (he : e.IsFeedFree) {threshold : Nat} {r : Run} {p : Proposal}
    (h : e.Proposes threshold r p) : ∀ pattern ∈ p.patterns, .of '\n' ∉ pattern := by
  cases h with
  | directory hd h =>
    obtain ⟨-, -, -, -, -, -, hpatterns, -, -⟩ := proposeDirectory?_spec h
    rw [hpatterns, List.forall_mem_singleton]
    exact not_mem_directoryPattern (he.candidates _ hd)
  | nearFull hd h =>
    obtain ⟨scan, missing, hscan, hmissing, -, -, hpatterns, -, -⟩ := proposeNearFull?_spec h
    rw [hpatterns, List.forall_mem_cons]
    refine ⟨not_mem_directoryPattern (he.candidates _ hd), fun pattern hpattern => ?_⟩
    simp only [List.map_map, List.mem_map, Function.comp_apply] at hpattern
    obtain ⟨m, hm, rfl⟩ := hpattern
    have hfile := (Coverage.mem_of_nearFull? hmissing m hm).1
    have hfree := not_mem_escapeLiteral (he.scan (he.candidates _ hd) hscan m hfile)
    rw [List.mem_cons, not_or]
    exact ⟨by decide, hfree⟩
  | @extension r' place hplace h =>
    obtain ⟨f, hf, hparent, -, hext⟩ := mem_extensionPlaces hplace
    obtain ⟨-, deep, -, -, -, -, -, hpatterns, -⟩ := proposeExtension?_spec h
    have hdirectory : .of '\n' ∉ place.1 := hparent ▸ not_mem_parent (he.selection f hf)
    have hextension : .of '\n' ∉ place.2 :=
      hext ▸ fun hc => he.selection f hf (mem_of_mem_extension hc)
    rw [hpatterns, List.forall_mem_singleton, extensionPattern]
    simp only [List.mem_append, List.mem_cons, not_or]
    exact ⟨⟨not_mem_escapeLiteral hdirectory, by cases deep <;> decide⟩, by decide, by decide,
      hextension⟩
  | everywhere hplace h =>
    obtain ⟨scan, f, hscan, hf, rfl, -⟩ := mem_globalExtensions hplace
    obtain ⟨-, -, -, -, hpatterns, -, -⟩ := proposeGlobal?_spec h
    rw [hpatterns, List.forall_mem_singleton, List.mem_append, not_or]
    exact ⟨by decide, fun hc => he.scan (by simp) hscan f hf (mem_of_mem_extension hc)⟩

/-- **The patterns of a run have no line feeds.** -/
theorem not_mem_run (he : e.IsFeedFree) (plan : RulePlan) :
    ∀ pattern ∈ (e.run plan).patterns, .of '\n' ∉ pattern := by
  have hrules : ∀ pattern ∈ (e.applyRules (e.thresholdOf plan.level) plan.rules .start).patterns,
      .of '\n' ∉ pattern := by
    refine applyRules_induction
      (motive := fun r => ∀ pattern ∈ r.patterns, CodePoint.of '\n' ∉ pattern)
      (fun r p hp h pattern hpattern => ?_) plan.rules (by simp [Run.start])
    rcases List.mem_append.1 hpattern with hpattern | hpattern
    · exact h pattern hpattern
    · exact hp.not_mem he pattern hpattern
  intro pattern hpattern
  rcases List.mem_append.1 hpattern with hpattern | hpattern
  · exact hrules pattern hpattern
  · obtain ⟨f, hf, rfl⟩ := List.mem_map.1 hpattern
    exact not_mem_escapeLiteral (he.selection f (List.mem_of_mem_filter hf))

end Engine

end GlobPreset
