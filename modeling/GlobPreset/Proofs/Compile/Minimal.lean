import GlobPreset.Proofs.Collapse.Essential
import GlobPreset.Proofs.Compile.RoundTrip

/-!
# The list of the lowest level

The lowest level collapses whole directories only. Its stored list is known in closed form: the
patterns of the outermost essential directories in order, and then those of the files that are in no
full directory.

## Main results

* `Compile.exhausts_engine` — the engine of a selection has all of its directories.
* `Compile.minimal_patterns` — **the list of the lowest level**.

## Design

Two passes in opposite directions decide about a directory. The run, from the bottom of the tree to
its top, leaves out a full directory if all of its files are in full directories further inside. The
elimination, from the top to the bottom, leaves out a directory that another one leads to. What the
run has left out does not count there, even if it contains all the others.
-/

set_option autoImplicit false

namespace GlobPreset

open GlobPreset.Path

namespace Compile

variable {context : Context} {ignore : IgnoreRules} {selection : List Text}

/-- **The engine of a selection has all of its directories**, the deepest first, if it works on the
scans and letter case counts. -/
lemma exhausts_engine {s : Scanner} {e : Engine} {paths : List Text}
    (he : engine s context paths = .ok e) (hw : e.WorksOn s) (hpolicy : s.policy = .sensitive)
    (hselected : s.selected = paths) : e.Exhausts s := by
  obtain ⟨tree, htree, rfl, hcandidates, -, -, -⟩ := engine_spec he
  have hplain : ∀ f ∈ e.selection, IsPlain f := fun f hf => (hw.selected f hf).isPlain
  refine ⟨hw, hpolicy, hselected, fun hl hrest hn hmem => ?_, ?_⟩
  · rw [hcandidates]
    exact SelectionTree.mem_deepestFirst_of_mem hplain htree hl hrest hn hmem
  · rw [hcandidates]
    exact (isLinear_deeperFirst.pairwise _).imp depth_le_of_deeperFirst

/-- **The list of the lowest level.** Where letter case counts, an ordinary selection of a memory
tree is compiled, and its list consists of the patterns of the outermost essential directories,
sorted, and the literal patterns of the selected files that are in no full directory, sorted. -/
theorem minimal_patterns {t : MemoryTree} (ht : t.WellFormed)
    (hord : t.fileSystem.HasOrdinaryFiles t.root.toText) (hpolicy : context.policy = .sensitive)
    (hignore : context.ignoreRules = .ok ignore)
    (hsel : t.fileSystem.IsSelection t.root.toText selection) :
    ∃ paths s c, pathsOf context selection = .ok paths ∧
      scanner t.fileSystem t.root.toText context ignore paths = .ok s ∧
      (compileSelection t.fileSystem t.root.toText context .minimal selection).outcome = .ok c ∧
      ∃ dirs files : List Text,
        dirs.Nodup ∧ (∀ d, d ∈ dirs ↔ s.IsOutermost context.minFiles selection d) ∧
        files.Nodup ∧ (∀ f, f ∈ files ↔ f ∈ selection ∧
          ∀ d, s.IsFull context.minFiles selection d → ¬ s.Holds d f) ∧
        c.patterns = Text.sort (dirs.map Engine.directoryPattern) ++
          Text.sort (files.map Pattern.escapeLiteral) := by
  have hp := MemoryTree.isProject ht ht.root
  have hapart : t.fileSystem.IsToldApart t.root.toText context.policy :=
    hpolicy ▸ FileSystem.isToldApart_sensitive
  obtain ⟨hof, hpaths⟩ := pathsOf_of_isSelection hp hapart hsel
  let s : Scanner := ⟨t.fileSystem, t.root.toText,
    (Text.sort (dedupe selection)).map context.policy.key, ignore, context.policy⟩
  by_cases hne : selection = []
  · subst hne
    have hc := outcome_nil t.fileSystem t.root.toText hof .minimal
    refine ⟨_, s, _, hof, rfl, hc, [], [], List.nodup_nil, fun d => ?_, List.nodup_nil, by simp,
      rfl⟩
    simp only [List.not_mem_nil, false_iff]
    rintro ⟨⟨hfull, f, hf, -⟩, -⟩
    exact absurd (hfull.selected f hf) List.not_mem_nil
  have hmem : ∀ f, f ∈ Text.sort (dedupe selection) ↔ f ∈ selection := fun f => by simp
  obtain ⟨e, he, hw, hselection, hcontext⟩ := engine_eq_ok hp hord hapart hpaths
    (s := s) rfl rfl rfl
  have hselected : s.selected = Text.sort (dedupe selection) := by
    show (Text.sort (dedupe selection)).map context.policy.key = _
    rw [hpolicy]
    exact CasePolicy.map_key_sensitive _
  have hx := exhausts_engine he hw hpolicy hselected
  have houtcome : outcome t.fileSystem t.root.toText context .minimal selection =
      .ok (e.optimize ignore .minimal) :=
    outcome_eq_optimize rfl hignore hof (sort_dedupe_ne_nil hne) he hw.sparesProject.candidates
      .minimal
  obtain ⟨dirs, files, hdirs, houtermost, hnodup, hfiles, hpatterns⟩ :=
    Engine.patterns_optimize_minimal hx fun f hf => (hsel f ((hmem f).1 (hselection ▸ hf))).2
  -- the engine has the selection without repetitions
  rw [hselection, hcontext] at houtermost hfiles
  refine ⟨_, s, _, hof, rfl, houtcome, dirs, files, hdirs, fun d => ?_, hnodup, fun f => ?_,
    hpatterns⟩
  · rw [houtermost, Scanner.isOutermost_congr hmem]
  · simp only [hfiles, hmem, Scanner.isFull_congr hmem]

/-! ### A sample -/

/-- A project with a directory inside another one, which walks from above leave out. -/
def nestedTree : MemoryTree :=
  .build "/p".toText [.file "s/a".toText [], .file "s/b".toText [], .file "s/o/c".toText [],
    .file "s/o/k/d".toText [], .file "s/o/k/e".toText [], .file "t".toText []]

/-- All files of the sample. -/
def nestedSelection : List Text :=
  ["s/a", "s/b", "s/o/c", "s/o/k/d", "s/o/k/e", "t"].map String.toText

/-- The nested tree is well-formed. -/
lemma wellFormed_nestedTree : nestedTree.WellFormed :=
  MemoryTree.wellFormed_build rfl _ (by decide +kernel)

/-- The files of the nested tree have ordinary names. -/
lemma hasOrdinaryFiles_nestedTree :
    nestedTree.fileSystem.HasOrdinaryFiles nestedTree.root.toText :=
  MemoryTree.IsOrdinary.hasOrdinaryFiles wellFormed_nestedTree (by decide +kernel)
    (by decide +kernel)

/-- The nested selection is one of files of the nested tree. -/
lemma isSelection_nestedSelection :
    nestedTree.fileSystem.IsSelection nestedTree.root.toText nestedSelection := by
  have hall : ∀ f ∈ nestedSelection, IsOrdinary f ∧
      nestedTree.fileSystem.isFile (absolute nestedTree.root.toText f) = true := by decide +kernel
  exact fun f hf => ⟨(hall f hf).1, (hall f hf).1.isPlain, (hall f hf).2⟩

/-- Two directories of the sample are outermost, for the name between them is ignored; the third
one, inside the second one, is not. -/
theorem minimal_patterns_nestedTree :
    ∃ (s : Scanner) (dirs files : List Text),
      scanner nestedTree.fileSystem nestedTree.root.toText sampleContext ⟨[[.of 'o']], ⟨[]⟩⟩
        (Text.sort nestedSelection) = .ok s ∧
      (∀ d, d ∈ dirs ↔ s.IsOutermost 2 nestedSelection d) ∧
      (∀ f, f ∈ files ↔ f ∈ nestedSelection ∧
        ∀ d, s.IsFull 2 nestedSelection d → ¬ s.Holds d f) ∧
      Text.sort (dirs.map Engine.directoryPattern) ++ Text.sort (files.map Pattern.escapeLiteral) =
        ["s/**".toText, "s/o/**".toText, "t".toText] := by
  have hignore : sampleContext.ignoreRules = .ok ⟨[[.of 'o']], ⟨[]⟩⟩ := rfl
  obtain ⟨paths, s, c, hpaths, hs, hc, dirs, files, -, hdirs, -, hfiles, hpatterns⟩ :=
    minimal_patterns wellFormed_nestedTree hasOrdinaryFiles_nestedTree rfl hignore
      isSelection_nestedSelection
  have hsort : pathsOf sampleContext nestedSelection = .ok (Text.sort nestedSelection) := by
    decide +kernel
  rw [hsort] at hpaths
  cases hpaths
  have hlist : (compileSelection nestedTree.fileSystem nestedTree.root.toText sampleContext .minimal
      nestedSelection).outcome.map Compilation.patterns =
        .ok ["s/**".toText, "s/o/**".toText, "t".toText] := by decide +kernel
  rw [hc] at hlist
  exact ⟨s, dirs, files, hs, hdirs, hfiles, hpatterns.symm.trans (Except.ok.inj hlist)⟩

end Compile

end GlobPreset
