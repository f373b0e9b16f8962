import GlobPreset.Proofs.Collapse.Characters
import GlobPreset.Proofs.Collapse.Soundness
import GlobPreset.Proofs.Compile.RoundTrip
import GlobPreset.Proofs.Emit.Count
import GlobPreset.Proofs.Selection.Normal

/-!
# More effort never gives a longer list

The plans of a level include those of the levels below it, and what a plan gives does not depend on
the level that runs it, but for the braces of the highest one. So a higher level gives a list that
is no longer, as merging into braces makes no list longer. The least effort gives no more patterns
than there are selected files, as every directory that it collapses has a file that was not covered
before.

## Main results

* `Engine.length_best_le_best` — more plans, and braces, give no longer list.
* `Engine.length_run_minimal_le` — collapsing whole directories makes no list longer.
* `Compile.exists_engine_of_outcome` — a selection that is compiled at one level is compiled by one
  engine at every level.
* `Compile.length_patterns_antitone` — **more effort never gives a longer list**.

## Design

Nothing is asked of the file system but that no listed name has a line feed. A pattern with a line
feed at its end could be merged twice, once with the line feed and once without, which would make
the list longer.
-/

set_option autoImplicit false

namespace GlobPreset

open GlobPreset.Path Text

/-! ### Plans -/

namespace Engine

variable {e : Engine} {ignore : IgnoreRules}

/-- The shortest of several lists is no longer than any of them. -/
lemma length_foldl_shorter_le (others : List Merge.Outcome) (first : Merge.Outcome) :
    ∀ l ∈ first :: others, (others.foldl shorter first).patterns.length ≤ l.patterns.length := by
  induction others generalizing first with
  | nil =>
    intro l hl
    rw [List.mem_singleton.1 hl]
    exact le_rfl
  | cons next others ih =>
    have hstep : (shorter first next).patterns.length ≤ first.patterns.length ∧
        (shorter first next).patterns.length ≤ next.patterns.length := by
      unfold shorter
      split <;> omega
    have hfirst := ih (shorter first next) _ List.mem_cons_self
    intro l hl
    rcases List.mem_cons.1 hl with rfl | hl
    · exact hfirst.trans hstep.1
    · rcases List.mem_cons.1 hl with rfl | hl
      · exact hfirst.trans hstep.2
      · exact ih (shorter first next) l (List.mem_cons_of_mem _ hl)

/-- The best list is no longer than that of any plan. -/
lemma length_best_le (braces : Bool) {plans : List RulePlan} {plan : RulePlan}
    (hplan : plan ∈ plans) :
    (e.best braces ignore plans).patterns.length ≤
      (e.candidate braces ignore plan).patterns.length := by
  obtain ⟨first, rest, rfl⟩ := List.exists_cons_of_ne_nil (List.ne_nil_of_mem hplan)
  refine length_foldl_shorter_le _ _ _ ?_
  rw [← List.map_cons (f := e.candidate braces ignore)]
  exact List.mem_map_of_mem hplan

/-- **More plans, and braces, give no longer list.** -/
theorem length_best_le_best (he : e.IsFeedFree) (braces : Bool) {lower higher : List RulePlan}
    (hne : lower ≠ []) (hsub : lower ⊆ higher) :
    (e.best braces ignore higher).patterns.length ≤
      (e.best false ignore lower).patterns.length := by
  obtain ⟨plan, hplan, hbest⟩ := e.exists_candidate false ignore hne
  calc (e.best braces ignore higher).patterns.length
    _ ≤ (e.candidate braces ignore plan).patterns.length := length_best_le braces (hsub hplan)
    _ ≤ (e.candidate false ignore plan).patterns.length :=
        length_emit_braces_le (not_mem_run he plan) braces
    _ = (e.best false ignore lower).patterns.length := by rw [hbest]

/-! ### Whole directories -/

/-- What is not covered after a step. -/
lemma uncovered_accept (r : Run) (policy : CasePolicy) (p : Proposal) (files : List Text) :
    (r.accept policy p).uncovered policy files =
      (r.uncovered policy files).filter
        fun f => !(p.files.map policy.key).contains (policy.key f) := by
  simp only [Run.uncovered, Run.covers, Run.accept, List.filter_filter]
  refine List.filter_congr fun f _ => ?_
  rw [List.contains_eq_any_beq, List.any_append, ← List.contains_eq_any_beq,
    ← List.contains_eq_any_beq, Bool.not_or, Bool.and_comm]

/-- A step that collapses a whole directory covers a selected file that was not covered. -/
lemma length_uncovered_lt {r : Run} {d : Text} {p : Proposal}
    (hscans : ∀ {scan}, e.scan? d = some scan → scan.fullySelected = true → ∀ f ∈ scan.files,
      e.policy.key f ∈ e.selection.map e.policy.key)
    (h : e.proposeDirectory? r d = some p) :
    ((r.accept e.policy p).uncovered e.policy e.selection).length <
      (r.uncovered e.policy e.selection).length := by
  obtain ⟨scan, hscan, -, hfull, huncovered, -, -, hfiles, -⟩ := proposeDirectory?_spec h
  obtain ⟨f, hf⟩ := List.exists_mem_of_ne_nil _ huncovered
  obtain ⟨hf, hnot⟩ := List.mem_filter.1 hf
  obtain ⟨g, hg, hkey⟩ := List.mem_map.1 (hscans hscan hfull f hf)
  -- the selected file of the same key is not covered before, and is afterwards
  have hopen : g ∈ r.uncovered e.policy e.selection := by
    refine List.mem_filter.2 ⟨hg, ?_⟩
    rwa [Run.covers, hkey]
  rw [uncovered_accept, hfiles, List.length_filter_lt_length_iff_exists]
  refine ⟨g, hopen, ?_⟩
  rw [Bool.not_eq_true', Bool.not_eq_false, List.contains_iff_mem, hkey]
  exact List.mem_map_of_mem hf

/-- **Collapsing whole directories makes no list longer** than the selection: every pattern of a
directory takes the place of a selected file at least.

**Proof sketch.** The invariant of the run is that the patterns and the files that are not covered
are together no more than the selected files. A step adds one pattern and covers a file. -/
theorem length_run_minimal_le
    (hscans : ∀ {d scan}, e.scan? d = some scan → scan.fullySelected = true → ∀ f ∈ scan.files,
      e.policy.key f ∈ e.selection.map e.policy.key) :
    (e.run .minimal).patterns.length ≤ e.selection.length := by
  have hrules : (e.proposeAt e.proposeDirectory? .start e.candidates).patterns.length +
      ((e.proposeAt e.proposeDirectory? .start e.candidates).uncovered e.policy
        e.selection).length ≤ e.selection.length := by
    refine proposeAt_induction (motive := fun r =>
      r.patterns.length + (r.uncovered e.policy e.selection).length ≤ e.selection.length)
      (fun r d _ p hp h => ?_) ?_
    · obtain ⟨-, -, -, -, -, -, hpatterns, -, -⟩ := proposeDirectory?_spec hp
      have hcovers := length_uncovered_lt hscans hp
      have hpattern : (r.accept e.policy p).patterns.length = r.patterns.length + 1 := by
        rw [Run.accept, List.length_append, hpatterns, List.length_singleton]
      omega
    · rw [Run.start, List.length_nil, Nat.zero_add]
      exact List.length_filter_le _ _
  change (e.finish (e.proposeAt e.proposeDirectory? .start e.candidates)).patterns.length ≤ _
  rwa [finish, List.length_append, literals, List.length_map]

end Engine

/-! ### Selections -/

namespace Compile

variable {fs : FileSystem} {root : Text} {context : Context} {selection paths : List Text}

/-- Leaving out paths of a key that was met brings no new path. -/
lemma mem_of_mem_distinctPaths {policy : CasePolicy} {p : Text}
    (h : p ∈ distinctPaths policy paths) : p ∈ paths := by
  have hgo : ∀ {paths : List Text}, p ∈ distinctPaths.go paths → p ∈ paths := by
    intro paths
    induction paths with
    | nil => exact fun h => h
    | cons q rest ih =>
      intro h
      rcases List.mem_cons.1 h with rfl | h
      · exact List.mem_cons_self
      · exact List.mem_cons_of_mem q (ih (List.mem_of_mem_filter h))
  cases policy with
  | sensitive => exact h
  | insensitive => exact hgo h

/-- The paths to be compiled have no line feeds if the selection has none. -/
lemma not_mem_pathsOf (h : pathsOf context selection = .ok paths)
    (hsel : ∀ p ∈ selection, .of '\n' ∉ p) : ∀ p ∈ paths, .of '\n' ∉ p := by
  intro p hp hc
  unfold pathsOf Selection.normalize at h
  cases hsafe : selection.forM (Path.checkSafe Selection.role) with
  | error e => simp [hsafe, bind, Except.bind, Except.map, Except.mapError] at h
  | ok =>
    simp only [hsafe, bind, Except.bind, pure, Except.pure, Except.map, Except.mapError,
      Except.ok.injEq] at h
    subst h
    have hmem := mem_of_mem_distinctPaths hp
    rw [mem_sort, mem_dedupe] at hmem
    obtain ⟨q, hq, hnormal⟩ := List.mem_filterMap.1 hmem
    unfold Selection.normalPath? at hnormal
    dsimp only at hnormal
    split at hnormal
    · cases hnormal
    · cases hnormal
      rcases Selection.mem_normalPath hc with hc | hc
      · exact absurd hc (by decide)
      · exact hsel q hq hc

/-! ### Engines -/

/-- What an engine of a compilation looks at. -/
lemma engine_spec {s : Scanner} {e : Engine} (h : engine s context paths = .ok e) :
    ∃ tree, SelectionTree.ofPaths paths = .ok tree ∧ e.selection = paths ∧
      e.candidates = tree.deepestFirst ∧ e.context = context ∧
      e.coverage = .ofSelection context.policy paths ∧ ∀ d, e.scan? d = s.scan? d := by
  unfold engine Engine.ofSelection at h
  cases htree : SelectionTree.ofPaths paths with
  | error conflict => simp [htree, bind, Except.bind, Except.mapError] at h
  | ok tree =>
    simp only [htree, bind, Except.bind, Except.mapError, pure, Except.pure,
      Except.ok.injEq] at h
    subst h
    exact ⟨tree, rfl, rfl, rfl, rfl, rfl, recallScan_map s.scan? _⟩

/-- **A selection that is compiled at one level is compiled by one engine at every level.** -/
theorem exists_engine_of_outcome {level : Level} {c : Compilation}
    (h : outcome fs root context level selection = .ok c) :
    ∃ paths, pathsOf context selection = .ok paths ∧
      ((∀ level, outcome fs root context level selection = .ok (.empty level)) ∨
        ∃ ignore e, engine ⟨fs, root, paths.map context.policy.key, ignore, context.policy⟩
            context paths = .ok e ∧
          ∀ level, outcome fs root context level selection = .ok (e.optimize ignore level)) := by
  cases hpaths : pathsOf context selection with
  | error fault => simp [outcome, hpaths, bind, Except.bind] at h
  | ok paths =>
    refine ⟨paths, rfl, ?_⟩
    cases hempty : paths.isEmpty with
    | true =>
      refine .inl fun level => ?_
      simp [outcome, hpaths, hempty, bind, Except.bind, pure, Except.pure]
    | false =>
      right
      cases hignore : context.ignoreRules with
      | error fault =>
        simp [outcome, hpaths, hempty, hignore, bind, Except.bind, Except.mapError] at h
      | ok ignore =>
        cases hrefusal : fs.refusal? root with
        | some fault =>
          simp [outcome, hpaths, hempty, hignore, scanner, hrefusal, bind, Except.bind,
            Except.mapError] at h
        | none =>
          cases he : engine ⟨fs, root, paths.map context.policy.key, ignore, context.policy⟩
              context paths with
          | error fault =>
            simp [outcome, hpaths, hempty, hignore, scanner, hrefusal, he, bind, Except.bind,
              Except.mapError] at h
          | ok e =>
            refine ⟨ignore, e, he, fun level => ?_⟩
            cases hproject : e.candidates.contains Engine.projectSegment with
            | true =>
              simp only [outcome, hpaths, hempty, hignore, scanner, hrefusal, he, hproject, bind,
                Except.bind, Except.mapError] at h
              cases h
            | false =>
              simp only [outcome, hpaths, hempty, hignore, scanner, hrefusal, he, hproject, bind,
                Except.bind, Except.mapError]
              rfl

/-- The engine of a selection without line feeds has none, if no listed name has one. -/
lemma isFeedFree_engine {s : Scanner} {e : Engine} (hs : s.fs.Lists (.of '\n' ∉ ·))
    (hpaths : ∀ p ∈ paths, .of '\n' ∉ p) (h : engine s context paths = .ok e) : e.IsFeedFree := by
  obtain ⟨tree, htree, hselection, hcandidates, -, -, hscan⟩ := engine_spec h
  have hjoin : ∀ {d : Text} {l : List Text}, .of '\n' ∉ d → (∀ n ∈ l, .of '\n' ∉ n) →
      .of '\n' ∉ l.foldl join d := by
    intro d l hd hl hc
    rcases mem_foldl_join hc with hc | hc | ⟨n, hn, hc⟩
    · exact absurd hc (by decide)
    · exact hd hc
    · exact hl n hn hc
  refine ⟨hselection ▸ hpaths, fun d hd => ?_, fun {d scan} hd hsome f hf => ?_⟩
  · have hnames : ∀ p ∈ paths, ∀ n ∈ names p, .of '\n' ∉ n := fun p hp n hn hc =>
      hpaths p hp ((mem_of_mem_splitOn (List.mem_of_mem_filter hn)) hc)
    obtain ⟨l, hl, rfl⟩ :=
      SelectionTree.exists_names_of_mem_deepestFirst hnames htree (hcandidates ▸ hd)
    exact hjoin (by simp) hl
  · rw [hscan] at hsome
    obtain ⟨l, hl, rfl⟩ := Scanner.exists_names_of_visit hs hsome f hf
    refine hjoin (fun hc => hd ?_) hl
    rw [dropAround, dropEndWhile_eq_rdropWhile] at hc
    exact (List.dropWhile_sublist _).subset ((List.rdropWhile_prefix _ _).subset hc)

/-- The files of a fully selected scan are selected. -/
lemma key_mem_of_fullySelected {s : Scanner} {directory : Text} {scan : DirectoryScan}
    (h : s.scan? directory = some scan) (hfull : scan.fullySelected = true) :
    ∀ f ∈ scan.files, s.policy.key f ∈ s.selected := by
  obtain ⟨-, -, entries, t, -, -, rfl⟩ := Scanner.visit_spec h
  simp only [Scanner.ofTally, Bool.and_eq_true, List.all_eq_true, Scanner.isSelected,
    List.contains_iff_mem] at hfull
  exact hfull.2

/-! ### Compactness -/

/-- **More effort never gives a longer list.** A selection that is compiled at some level is
compiled at every level; the highest gives no more patterns than the middle one, that no more than
the lowest, and the lowest no more than there are paths of different keys.

**Proof sketch.** One engine compiles the selection at all levels. A plan gives the same run at each
of them, so a level that has the plans of another finds a list as short as that of the other one;
and with braces a list is no longer than without. -/
theorem length_patterns_antitone {level : Level} {c : Compilation}
    (h : (compileSelection fs root context level selection).outcome = .ok c)
    (htree : fs.Lists (.of '\n' ∉ ·)) (hsel : ∀ p ∈ selection, .of '\n' ∉ p) :
    ∃ paths minimal balanced aggressive, pathsOf context selection = .ok paths ∧
      (compileSelection fs root context .minimal selection).outcome = .ok minimal ∧
      (compileSelection fs root context .balanced selection).outcome = .ok balanced ∧
      (compileSelection fs root context .aggressive selection).outcome = .ok aggressive ∧
      aggressive.patterns.length ≤ balanced.patterns.length ∧
      balanced.patterns.length ≤ minimal.patterns.length ∧
      minimal.patterns.length ≤ paths.length := by
  obtain ⟨paths, hpaths, hempty | ⟨ignore, e, he, hlevels⟩⟩ := exists_engine_of_outcome h
  · exact ⟨paths, .empty .minimal, .empty .balanced, .empty .aggressive, hpaths, hempty _, hempty _,
      hempty _, le_rfl, le_rfl, Nat.zero_le _⟩
  have hfree : e.IsFeedFree := isFeedFree_engine htree (not_mem_pathsOf hpaths hsel) he
  obtain ⟨-, -, hselection, -, hcontext, -, hscan⟩ := engine_spec he
  have hminimal : (e.run .minimal).patterns.length ≤ e.selection.length := by
    refine Engine.length_run_minimal_le fun {d scan} hsome hfull f hf => ?_
    rw [hscan] at hsome
    rw [Engine.policy, hcontext, hselection]
    exact key_mem_of_fullySelected hsome hfull f hf
  have hbest : ∀ level, (e.optimize ignore level).patterns =
      (e.best (level == .aggressive) ignore level.plans).patterns := fun _ => rfl
  -- of the three levels, only the highest one makes braces
  have hbalanced : (Level.balanced == .aggressive) = false := by decide
  have hlowest : (Level.minimal == .aggressive) = false := by decide
  refine ⟨paths, e.optimize ignore .minimal, e.optimize ignore .balanced,
    e.optimize ignore .aggressive, hpaths, hlevels _, hlevels _, hlevels _, ?_, ?_, ?_⟩
  · rw [hbest, hbest, hbalanced]
    exact Engine.length_best_le_best hfree _ (plans_ne_nil .balanced) (by simp [Level.plans])
  · rw [hbest, hbest, hbalanced, hlowest]
    exact Engine.length_best_le_best hfree _ (plans_ne_nil .minimal) (by simp [Level.plans])
  · calc (e.optimize ignore .minimal).patterns.length
      _ = (emit false ignore e.policy (e.run .minimal).patterns).patterns.length := rfl
      _ ≤ (e.run .minimal).patterns.length := length_emit_le
      _ ≤ e.selection.length := hminimal
      _ = paths.length := by rw [hselection]

/-- The sample context for paths whose letter case does not count. -/
def foldingContext : Context := { sampleContext with policy := .insensitive }

/-- The sample selection is compiled at all levels, to no longer lists with more effort. -/
theorem length_patterns_antitone_sampleSelection :
    ∃ paths minimal balanced aggressive, pathsOf foldingContext sampleSelection = .ok paths ∧
      (compileSelection sampleTree.fileSystem sampleTree.root.toText foldingContext .minimal
        sampleSelection).outcome = .ok minimal ∧
      (compileSelection sampleTree.fileSystem sampleTree.root.toText foldingContext .balanced
        sampleSelection).outcome = .ok balanced ∧
      (compileSelection sampleTree.fileSystem sampleTree.root.toText foldingContext .aggressive
        sampleSelection).outcome = .ok aggressive ∧
      aggressive.patterns.length ≤ balanced.patterns.length ∧
      balanced.patterns.length ≤ minimal.patterns.length ∧
      minimal.patterns.length ≤ paths.length := by
  have hcompiled : (compileSelection sampleTree.fileSystem sampleTree.root.toText foldingContext
      .balanced sampleSelection).outcome.toBool = true := by
    decide +kernel
  obtain ⟨c, hc⟩ : ∃ c, (compileSelection sampleTree.fileSystem sampleTree.root.toText
      foldingContext .balanced sampleSelection).outcome = .ok c := by
    cases hc : (compileSelection sampleTree.fileSystem sampleTree.root.toText foldingContext
        .balanced sampleSelection).outcome with
    | error fault => rw [hc] at hcompiled; cases hcompiled
    | ok c => exact ⟨c, rfl⟩
  have hnames : ∀ l ∈ sampleTree.locations, ∀ s ∈ l.segments, .of '\n' ∉ s := by decide
  exact length_patterns_antitone hc (MemoryTree.lists hnames) (by decide)

end Compile

end GlobPreset
