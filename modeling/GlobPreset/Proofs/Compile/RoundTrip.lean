import GlobPreset.Compile
import GlobPreset.Proofs.Collapse.Record
import GlobPreset.Proofs.Collapse.Soundness
import GlobPreset.Proofs.Emit.Eliminate

/-!
# Compiling and expanding

The stored list of a selection expands to the selection. The raw patterns of every run account for
it; leaving out redundant patterns, merging, ordering, writing and reading keep what the patterns
stand for.

## Main results

* `Engine.Accounts.emit_spec` — emitting patterns that account for the selection.
* `Engine.exists_candidate` — the best list is that of some plan.
* `Compile.outcome_of_paths` — **distinct ordinary paths are compiled**, files or not.
* `Compile.expand_compileSelection_of_isToldApart` — a selection comes back from a project whose
  paths are told apart, whether or not letter case counts.
* `Compile.expand_compileSelection` — **compiling and expanding gives the selection back**.
-/

set_option autoImplicit false

namespace GlobPreset

open GlobPreset.Path

namespace Engine

variable {e : Engine} {s : Scanner} {patterns keys : List Text}

/-! ### Emitting -/

/-- Patterns are accounted for by which there are. -/
lemma Accounts.dedupe (h : e.Accounts s patterns keys) :
    e.Accounts s (dedupe patterns) keys :=
  h.restrict (fun _ hp => mem_dedupe.1 hp) (fun _ hm => mem_dedupe.2 hm)
    fun g _ hg hadmits hstands => ⟨g, mem_dedupe.2 hg, hadmits, hstands⟩

open PatternList

/-- What is emitted: what merging leaves of patterns that account for the selection, and their
exclusions; the records of merging are one line each. -/
lemma Accounts.emit_parts (hw : e.WorksOn s) (h : e.Accounts s patterns keys) (braces : Bool) :
    ∃ raw merged : List Text, e.Accounts s raw keys ∧
      (∀ p, p ∈ (emit braces s.ignore s.policy patterns).patterns ↔
        p ∈ merged ∨ p ∈ raw ∧ isExcluded p = true) ∧
      (∀ p ∈ merged, Pattern.IsWritable p) ∧
      (∀ a, (∃ p ∈ merged, a ∈ Pattern.alternatives p) ↔ a ∈ (ofRaw raw).includes) ∧
      ∀ a ∈ (emit braces s.ignore s.policy patterns).applied, a.IsOneLine := by
  have hraw := h.dedupe.eliminateRedundant hw
  generalize hincludes : GlobPreset.eliminateRedundant s.ignore s.policy
    ((GlobPreset.dedupe patterns).filter (fun p => !isExcluded p)) = includes at hraw
  generalize hexclusions : (GlobPreset.dedupe patterns).filter isExcluded = exclusions at hraw
  have hunmarked : ∀ p ∈ includes, isExcluded p = false := by
    intro p hp
    subst hincludes
    simpa using (List.mem_filter.1 (List.mem_filter.1 hp).1).2
  have hexcluded : ∀ p ∈ exclusions, isExcluded p = true := by
    intro p hp
    subst hexclusions
    exact (List.mem_filter.1 hp).2
  have hincluded : ∀ p, p ∈ (ofRaw (includes ++ exclusions)).includes ↔ p ∈ includes := by
    intro p
    refine List.mem_filter.trans ⟨fun ⟨hp, hmark⟩ => ?_, fun hp => ?_⟩
    · refine (List.mem_append.1 hp).resolve_right fun hp => ?_
      rw [hexcluded p hp] at hmark
      cases hmark
    · exact ⟨List.mem_append_left _ hp, by simp [hunmarked p hp]⟩
  have hglob : ∀ p ∈ includes, ∃ g : Glob, g.IsProper ∧ p = g.text := by
    intro p hp
    obtain ⟨g, hg, hproper, -⟩ := hraw.isProper_of_mem ((hincluded p).2 hp)
    exact ⟨g, hproper, hg⟩
  obtain ⟨hwritable, hplain⟩ := Emit.braces_spec braces hglob rfl
  have hrecords := Emit.isOneLine_braces braces hglob rfl
  rw [← hincludes] at hrecords
  refine ⟨includes ++ exclusions, _, hraw, fun p => ?_, hwritable, fun a =>
    (hplain a).trans (hincluded a).symm, hrecords⟩
  rw [emit, hincludes, hexclusions, Emit.order, mem_sortBy, List.mem_append, List.mem_append]
  refine or_congr_right ⟨fun hp => ⟨.inr hp, hexcluded p hp⟩, fun ⟨hp, hmark⟩ => ?_⟩
  refine hp.resolve_left fun hp => ?_
  rw [hunmarked p hp] at hmark
  cases hmark

/-- **Emitted patterns are stored lines that select what some patterns of the run select**. -/
theorem Accounts.emit_spec (hw : e.WorksOn s) (h : e.Accounts s patterns keys) (braces : Bool)
    {out : List Text} (hout : out = (emit braces s.ignore s.policy patterns).patterns) :
    (∀ p ∈ out, IsStoredLine p) ∧ (ofRaw out).IsReadable s.policy ∧
      ∃ raw, e.Accounts s raw keys ∧ ∀ f,
        (ofRaw out).Selects s.policy s.fs s.root s.ignore f ↔
          (ofRaw raw).Selects s.policy s.fs s.root s.ignore f := by
  obtain ⟨raw, merged, hraw, hmem, hwritable, hplain, -⟩ := h.emit_parts hw braces
  rw [← hout] at hmem
  have hunmarked : ∀ p ∈ merged, isExcluded p = false := fun p hp =>
    (hwritable p hp).stored.isExcluded_eq
  have hincludes : ∀ p, p ∈ (ofRaw out).includes ↔ p ∈ merged := by
    intro p
    refine List.mem_filter.trans ⟨fun ⟨hp, hmark⟩ => ?_, fun hp => ?_⟩
    · refine ((hmem p).1 hp).resolve_right fun hp => ?_
      rw [hp.2] at hmark
      cases hmark
    · exact ⟨(hmem p).2 (.inl hp), by simp [hunmarked p hp]⟩
  have hexclusions : ∀ p, p ∈ out.filter isExcluded ↔ p ∈ raw.filter isExcluded := by
    intro p
    rw [List.mem_filter, List.mem_filter, hmem]
    refine and_congr_left fun hmark => ⟨fun hp => ?_, fun hp => .inr ⟨hp, hmark⟩⟩
    refine (hp.resolve_left fun hp => ?_).1
    rw [hunmarked p hp] at hmark
    cases hmark
  have hexcludes : ∀ x, x ∈ (ofRaw out).excludes ↔ x ∈ (ofRaw raw).excludes := by
    intro x
    simp only [ofRaw, List.mem_map, hexclusions]
  have halternatives : ∀ a, (∃ p ∈ (ofRaw out).includes, a ∈ Pattern.alternatives p) ↔
      ∃ p ∈ (ofRaw raw).includes, a ∈ Pattern.alternatives p := by
    have hself : ∀ p ∈ (ofRaw raw).includes, Pattern.alternatives p = [p] := fun p hp =>
      (hraw.alternatives_of_mem (List.mem_append_left _ hp)).1
    intro a
    simp only [hincludes]
    rw [hplain]
    constructor
    · intro ha
      exact ⟨a, ha, by rw [hself a ha]; exact List.mem_singleton_self a⟩
    · rintro ⟨p, hp, ha⟩
      rw [hself p hp, List.mem_singleton] at ha
      exact ha ▸ hp
  refine ⟨fun p hp => ?_, isReadable_iff.2 fun p hp => ?_, raw, hraw,
    selects_congr halternatives hexcludes _ _ _ _⟩
  · rcases (hmem p).1 hp with hp | ⟨hp, hmark⟩
    · exact .inl (hwritable p hp).stored
    · obtain ⟨m, hm, hspares⟩ := hraw.spares_of_mem
        (List.mem_map.2 ⟨p, List.mem_filter.2 ⟨hp, hmark⟩, rfl⟩)
      refine .inr ⟨_, ?_, hm ▸ isStored_escapeLiteral hspares.ordinary⟩
      rw [List.drop_one]
      exact List.eq_cons_of_mem_head? (by simpa [isExcluded] using hmark)
  · rcases List.mem_append.1 hp with hp | hp
    · have hin := (hincludes p).1 hp
      refine ⟨(hwritable p hin).safe, fun a ha => ?_⟩
      have hself := (hplain a).1 ⟨p, hin, ha⟩
      exact (hraw.alternatives_of_mem (List.mem_append_left _ hself)).2.1
    · exact isReadable_iff.1 hraw.isReadable p (List.mem_append_right _ ((hexcludes p).1 hp))

/-! ### The best plan -/

/-- The shortest of several lists is one of them. -/
lemma foldl_shorter_mem (others : List Merge.Outcome) (first : Merge.Outcome) :
    others.foldl shorter first ∈ first :: others := by
  induction others generalizing first with
  | nil => exact List.mem_cons_self
  | cons next others ih =>
    have hstep : shorter first next = first ∨ shorter first next = next := by
      unfold shorter
      split
      · exact .inr rfl
      · exact .inl rfl
    rcases List.mem_cons.1 (ih (shorter first next)) with hmem | hmem
    · rw [List.foldl_cons, hmem]
      rcases hstep with h | h <;> simp [h]
    · exact List.mem_cons_of_mem _ (List.mem_cons_of_mem _ hmem)

/-- **The best list is that of some plan.** -/
lemma exists_candidate (e : Engine) (braces : Bool) (ignore : IgnoreRules) {plans : List RulePlan}
    (hne : plans ≠ []) :
    ∃ plan ∈ plans, e.best braces ignore plans = e.candidate braces ignore plan := by
  obtain ⟨plan, rest, rfl⟩ := List.exists_cons_of_ne_nil hne
  have hmem := foldl_shorter_mem (rest.map (e.candidate braces ignore))
    (e.candidate braces ignore plan)
  rw [← List.map_cons (f := e.candidate braces ignore)] at hmem
  obtain ⟨best, hbest, heq⟩ := List.mem_map.1 hmem
  exact ⟨best, hbest, heq.symm⟩

end Engine

/-! ### The round trip -/

namespace Compile

open PatternList

variable {context : Context} {ignore : IgnoreRules} {selection : List Text}

/-- Every level has a plan. -/
lemma plans_ne_nil (level : Level) : level.plans ≠ [] := by
  cases level <;> decide

/-- Nothing is selected by the compilation of nothing. -/
lemma expandText_empty (fs : FileSystem) (root : Text) (context : Context) :
    (expandText fs root context []).outcome = .ok [] := rfl

/-- What is stored expands as what is emitted, if the emitted patterns are stored lines. -/
lemma expandText_toText {fs : FileSystem} {root : Text} {c : Compilation}
    (hlines : ∀ p ∈ c.patterns, IsStoredLine p) (hincludes : (ofRaw c.patterns).includes ≠ []) :
    (expandText fs root context c.toText).outcome =
      Expand.outcome fs root context (ofRaw c.patterns) := by
  have hparse : parse c.toText = ofRaw c.patterns := parse_storedText hlines (.inr hincludes)
  change Expand.outcome fs root context (parse c.toText) = _
  rw [hparse]

/-- Sorting and leaving out repetitions leaves something of a selection. -/
lemma sort_dedupe_ne_nil (h : selection ≠ []) : Text.sort (dedupe selection) ≠ [] := by
  obtain ⟨f, hf⟩ := List.exists_mem_of_ne_nil _ h
  exact List.ne_nil_of_mem (Text.mem_sort.2 (mem_dedupe.2 hf))

/-- Without paths there is nothing to be compiled. -/
lemma outcome_nil (fs : FileSystem) (root : Text) (hof : pathsOf context selection = .ok [])
    (level : Level) : outcome fs root context level selection = .ok (.empty level) := by
  rw [outcome, hof]
  rfl

/-- What an engine makes of a selection is its compilation, unless the project is one of the
directories. -/
lemma outcome_eq_optimize {fs : FileSystem} {root : Text} (hresolves : fs.refusal? root = none)
    (hignore : context.ignoreRules = .ok ignore) {paths : List Text}
    (hof : pathsOf context selection = .ok paths) (hne : paths ≠ []) {e : Engine}
    (he : engine ⟨fs, root, paths.map context.policy.key, ignore, context.policy⟩ context paths =
      .ok e) (hproject : Engine.projectSegment ∉ e.candidates) (level : Level) :
    outcome fs root context level selection = .ok (e.optimize ignore level) := by
  have hsome : paths.isEmpty = false := List.isEmpty_eq_false_iff.2 hne
  have hfree : e.candidates.contains Engine.projectSegment = false := by simpa using hproject
  simp only [outcome, hof, hignore, scanner, hresolves, bind, Except.bind, Except.mapError, he,
    hsome, hfree]
  rfl

/-- **Distinct ordinary paths are compiled** if the paths of the project are told apart: the stored
lines select the files among them, and nothing else if all of them are files; the records are one
line each. -/
lemma outcome_of_paths {fs : FileSystem} {root : Text} (hp : fs.IsProject root)
    (hord : fs.HasOrdinaryFiles root) (hresolves : fs.refusal? root = none)
    (hapart : fs.IsToldApart root context.policy) (hignore : context.ignoreRules = .ok ignore)
    {paths : List Text} (hof : pathsOf context selection = .ok paths)
    (hpaths : AreDistinct context.policy paths) (hne : paths ≠ []) (level : Level) :
    ∃ c, outcome fs root context level selection = .ok c ∧
      (∀ p ∈ c.patterns, IsStoredLine p) ∧ (ofRaw c.patterns).IsReadable context.policy ∧
      (∀ f ∈ paths, fs.HasFile root f →
        (ofRaw c.patterns).Selects context.policy fs root ignore f) ∧
      ((∀ f ∈ paths, fs.HasFile root f) → ∀ f,
        (ofRaw c.patterns).Selects context.policy fs root ignore f ↔ f ∈ paths) ∧
      ∀ a ∈ c.applied, a.IsOneLine := by
  let s : Scanner := ⟨fs, root, paths.map context.policy.key, ignore, context.policy⟩
  obtain ⟨e, he, hw, rfl, hcontext⟩ := engine_eq_ok hp hord hapart hpaths (s := s) rfl rfl rfl
  have houtcome :=
    outcome_eq_optimize hresolves hignore hof hne he hw.sparesProject.candidates level
  obtain ⟨plan, -, hbest⟩ :=
    e.exists_candidate (level == .aggressive) ignore (plans_ne_nil level)
  have hemit : e.candidate (level == .aggressive) ignore plan =
      ⟨(emit (level == .aggressive) ignore context.policy (e.run plan).patterns).patterns,
        (e.run plan).applied ++
          (emit (level == .aggressive) ignore context.policy (e.run plan).patterns).applied⟩ := by
    rw [Engine.candidate, Engine.policy, hcontext]
  have haccounts := Engine.accounts_run hw plan
  obtain ⟨hlines, hreadable, raw, hraw, hselects⟩ :=
    haccounts.emit_spec hw (level == .aggressive) rfl
  refine ⟨_, houtcome, ?_⟩
  rw [Engine.optimize, hbest, hemit]
  refine ⟨hlines, hreadable, fun f hf hfile => (hselects f).2 (hraw.selects_of_picks ⟨hf, hfile⟩),
    fun hall f => (hselects f).trans (hraw.selects_iff (fun p hp => ⟨hp, hall p hp⟩) f), ?_⟩
  obtain ⟨_, _, -, -, -, -, hrecords⟩ := haccounts.emit_parts hw (level == .aggressive)
  exact List.forall_mem_append.2 ⟨Engine.isOneLine_run hw plan, hrecords⟩

/-- A selection of ordinary files is compiled, its stored lines select its files, and its records
are one line each, if the paths of the project are told apart. -/
lemma outcome_spec {fs : FileSystem} {root : Text} (hp : fs.IsProject root)
    (hord : fs.HasOrdinaryFiles root) (hresolves : fs.refusal? root = none)
    (hapart : fs.IsToldApart root context.policy)
    (hignore : context.ignoreRules = .ok ignore) (hsel : fs.IsSelection root selection)
    (hne : selection ≠ []) (level : Level) :
    ∃ c, outcome fs root context level selection = .ok c ∧
      (∀ p ∈ c.patterns, IsStoredLine p) ∧ (ofRaw c.patterns).IsReadable context.policy ∧
      (∀ f, (ofRaw c.patterns).Selects context.policy fs root ignore f ↔ f ∈ selection) ∧
      ∀ a ∈ c.applied, a.IsOneLine := by
  have hmem : ∀ f, f ∈ Text.sort (dedupe selection) ↔ f ∈ selection := fun f => by simp
  have hpaths := pathsOf_of_isSelection hp hapart hsel
  obtain ⟨c, hc, hlines, hreadable, -, hselects, hrecords⟩ :=
    outcome_of_paths hp hord hresolves hapart hignore hpaths.1 hpaths.2 (sort_dedupe_ne_nil hne)
      level
  refine ⟨c, hc, hlines, hreadable, fun f => (hselects ?_ f).trans (hmem f), hrecords⟩
  exact fun f hf => (hsel f ((hmem f).1 hf)).2

/-- **Compiling and expanding gives the selection back**, whether or not letter case counts, where
the paths of the project are told apart.

**Proof sketch.** The best list is that of some plan. The run of that plan accounts for the
selection, and emitting keeps what is selected; the stored lines are read as they were written, so
what is expanded are the emitted patterns. -/
theorem expand_compileSelection_of_isToldApart {t : MemoryTree} (ht : t.WellFormed)
    (hord : t.fileSystem.HasOrdinaryFiles t.root.toText)
    (hapart : t.fileSystem.IsToldApart t.root.toText context.policy)
    (hignore : context.ignoreRules = .ok ignore)
    (hsel : t.fileSystem.IsSelection t.root.toText selection) (level : Level) :
    ∃ c, (compileSelection t.fileSystem t.root.toText context level selection).outcome = .ok c ∧
      (expandText t.fileSystem t.root.toText context c.toText).outcome =
        .ok (Text.sort (dedupe selection)) := by
  have hp := MemoryTree.isProject ht ht.root
  by_cases hne : selection = []
  · subst hne
    have hc :=
      outcome_nil t.fileSystem t.root.toText (pathsOf_of_isSelection hp hapart hsel).1 level
    exact ⟨_, hc, expandText_empty _ _ _⟩
  obtain ⟨c, hc, hlines, hreadable, hselects, -⟩ :=
    outcome_spec hp hord rfl hapart hignore hsel hne level
  refine ⟨c, hc, ?_⟩
  have hincludes : (ofRaw c.patterns).includes ≠ [] := by
    obtain ⟨f, hf⟩ := List.exists_mem_of_ne_nil _ hne
    obtain ⟨⟨p, hp, -⟩, -⟩ := (hselects f).2 hf
    exact List.ne_nil_of_mem hp
  rw [expandText_toText hlines hincludes]
  exact Expand.outcome_eq_sort hignore hreadable hselects

/-- **Compiling and expanding gives the selection back.** Whatever the level, an ordinary selection
of a memory tree is compiled, and the stored form of its compilation expands to the selection,
sorted and without duplicates. -/
theorem expand_compileSelection {t : MemoryTree} (ht : t.WellFormed)
    (hord : t.fileSystem.HasOrdinaryFiles t.root.toText)
    (hpolicy : context.policy = .sensitive) (hignore : context.ignoreRules = .ok ignore)
    (hsel : t.fileSystem.IsSelection t.root.toText selection) (level : Level) :
    ∃ c, (compileSelection t.fileSystem t.root.toText context level selection).outcome = .ok c ∧
      (expandText t.fileSystem t.root.toText context c.toText).outcome =
        .ok (Text.sort (dedupe selection)) :=
  expand_compileSelection_of_isToldApart ht hord (hpolicy ▸ FileSystem.isToldApart_sensitive)
    hignore hsel level

/-- The sample selection comes back from the level with the most rules. -/
theorem expand_compileSelection_sampleSelection :
    ∃ c, (compileSelection sampleTree.fileSystem sampleTree.root.toText sampleContext .aggressive
        sampleSelection).outcome = .ok c ∧
      (expandText sampleTree.fileSystem sampleTree.root.toText sampleContext c.toText).outcome =
        .ok (Text.sort sampleSelection) := by
  have hignore : sampleContext.ignoreRules = .ok ⟨[[.of 'o']], ⟨[]⟩⟩ := rfl
  have hdistinct : dedupe sampleSelection = sampleSelection := by decide
  obtain ⟨c, hc, hexpand⟩ := expand_compileSelection wellFormed_sampleTree
    hasOrdinaryFiles_sampleTree rfl hignore isSelection_sampleSelection .aggressive
  rw [hdistinct] at hexpand
  exact ⟨c, hc, hexpand⟩

end Compile

end GlobPreset
