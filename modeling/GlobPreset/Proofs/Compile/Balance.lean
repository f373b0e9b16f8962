import Mathlib.Algebra.GroupWithZero.Nat
import Mathlib.Algebra.Order.BigOperators.Group.List
import Mathlib.Algebra.Order.Group.Nat
import GlobPreset.Proofs.Compile.Spellings
import GlobPreset.Proofs.Pattern.StoredLiterals
import GlobPreset.Proofs.Scan.Distinct

/-!
# Every selected file is counted once

A run keeps books: every step records how many files it takes over, and by how many patterns it
replaces them. The books balance. What the steps take over, and what is left over for literal
patterns, is the selection; and what they put down is all there is besides the literal patterns.
This holds of every tree in memory, whether or not the selected files are in it.

## Main definitions

* `DirectoryScan.IsFaithful` — a scan with distinct files that calls only selected files selected.
* `Proposal.IsCounted` — a step that records what it does to the selection.
* `Run.Balances` — a run whose records add up to the selection.

## Main results

* `Engine.Proposes.isCounted` — the steps of all rules are counted.
* `Run.Balances.accept` — counted steps keep the books balanced.
* `Compile.run_balances` — **every selected file is counted once**, whatever the plan.

## Design

Rules overlap: a directory may be collapsed after one of its subdirectories was, or after some of
its extensions. So a step records the files that were not covered before, and the books are kept in
terms of what is not covered yet.
-/

set_option autoImplicit false

namespace GlobPreset

open GlobPreset.Path Text

/-! ### Scans and the selection -/

/-- The files of a scan are distinct, and what it calls selected is selected. -/
structure DirectoryScan.IsFaithful (scan : DirectoryScan) (selection : List Text) : Prop where
  /-- Every file is there once. -/
  nodup : scan.files.Nodup
  /-- In a scan that is fully selected, every file is selected. -/
  full : scan.fullySelected = true → ∀ f ∈ scan.files, f ∈ selection
  /-- The files of one extension directly inside the directory are distinct, and selected if all of
  them are said to be. -/
  direct : ∀ {extension group}, lookup? extension scan.direct = some group →
    group.Nodup ∧ (Coverage.coversExtension scan extension = true → ∀ f ∈ group, f ∈ selection)

/-- Paths are compared as they are written, no file is selected twice, and what is called selected
is. -/
structure Engine.IsFaithful (e : Engine) : Prop where
  /-- Letter case counts. -/
  sensitive : e.policy = .sensitive
  /-- No file is selected twice. -/
  nodup : e.selection.Nodup
  /-- What counts as selected is in the selection. -/
  selected : ∀ f, e.coverage.isSelected f = true → f ∈ e.selection
  /-- Every scan is faithful. -/
  scan : ∀ {d scan}, e.scan? d = some scan → scan.IsFaithful e.selection

/-! ### Steps -/

/-- A step that records what it does: it covers distinct files of the selection, and it counts those
that were not covered before, and its patterns. -/
structure Proposal.IsCounted (p : Proposal) (e : Engine) (r : Run) : Prop where
  /-- The files are distinct. -/
  nodup : p.files.Nodup
  /-- They are selected. -/
  selected : ∀ f ∈ p.files, f ∈ e.selection
  /-- Those are counted that were not covered before. -/
  before_eq : p.application.before = (r.uncovered e.policy p.files).length
  /-- The patterns are counted. -/
  after_eq : p.application.after = p.patterns.length
  /-- There is a pattern. -/
  one_le : 1 ≤ p.application.after
  /-- There are no more patterns than files that were not covered before. -/
  after_le : p.application.after ≤ p.application.before

namespace Engine

variable {e : Engine}

/-- **The steps of all rules are counted.** -/
theorem Proposes.isCounted (he : e.IsFaithful) {threshold : Nat} {r : Run} {p : Proposal}
    (h : e.Proposes threshold r p) : p.IsCounted e r := by
  have hpos : ∀ files, r.uncovered e.policy files ≠ [] →
      1 ≤ (r.uncovered e.policy files).length := fun _ => List.length_pos_of_ne_nil
  cases h with
  | directory hd h =>
    obtain ⟨scan, hscan, -, hfull, hopen, -, hpatterns, hfiles, happlied⟩ :=
      proposeDirectory?_spec h
    have hfaithful := he.scan hscan
    have hopen := hpos _ hopen
    constructor
    · rw [hfiles]
      exact hfaithful.nodup
    · rw [hfiles]
      exact hfaithful.full hfull
    all_goals simp only [happlied, hfiles, hpatterns, List.length_singleton]
    all_goals omega
  | nearFull hd h =>
    obtain ⟨scan, missing, hscan, -, -, -, hpatterns, hfiles, happlied, hfew⟩ :=
      proposeNearFull?_spec h
    constructor
    · rw [hfiles]
      exact (he.scan hscan).nodup.filter _
    · rw [hfiles]
      exact fun f hf => he.selected f (List.mem_filter.1 hf).2
    all_goals simp only [happlied, hfiles, hpatterns, List.length_cons, List.length_map]
    all_goals omega
  | @extension r' place hplace h =>
    obtain ⟨scan, deep, hscan, -, -, -, hfiles, hpatterns, happlied, hopen, hcovers, hbelow⟩ :=
      proposeExtension?_spec h
    have hfaithful := he.scan hscan
    have hopen := hpos _ hopen
    have hall : p.files.Nodup ∧ ∀ f ∈ p.files, f ∈ e.selection := by
      cases deep with
      | true =>
        have hselected := (Bool.and_eq_true_iff.1 (hbelow rfl)).2
        rw [hfiles, if_pos rfl]
        exact ⟨hfaithful.nodup.filter _,
          fun f hf => he.selected f (List.all_eq_true.1 hselected f hf)⟩
      | false =>
        rw [hfiles, if_neg Bool.false_ne_true]
        cases hgroup : lookup? place.2 scan.direct with
        | none => exact ⟨List.nodup_nil, fun f hf => absurd hf List.not_mem_nil⟩
        | some group =>
          obtain ⟨hnodup, hselected⟩ := hfaithful.direct hgroup
          exact ⟨hnodup, hselected hcovers⟩
    constructor
    · exact hall.1
    · exact hall.2
    all_goals simp only [happlied, hpatterns, List.length_singleton]
    all_goals omega
  | everywhere hplace h =>
    obtain ⟨scan', f, hscan', hf, rfl, -⟩ := mem_globalExtensions hplace
    obtain ⟨scan, hscan, -, -, hpatterns, hfiles, happlied, hselected, hopen⟩ :=
      proposeGlobal?_spec h
    obtain rfl : scan' = scan := Option.some.inj (hscan'.symm.trans hscan)
    have huncovered : r.uncovered e.policy p.files = p.files :=
      List.filter_eq_self.2 (List.all_eq_true.1 hopen)
    have hsome : 1 ≤ p.files.length := by
      apply List.length_pos_of_mem (a := f)
      rw [hfiles]
      exact List.mem_filter.2 ⟨hf, beq_self_eq_true _⟩
    constructor
    · rw [hfiles]
      exact (he.scan hscan).nodup.filter _
    · exact fun f hf => he.selected f (List.all_eq_true.1 hselected f hf)
    all_goals simp only [happlied, hpatterns, huncovered, List.length_singleton]
    all_goals omega

end Engine

/-! ### Runs -/

/-- The records of a run add up: to the selection without the files that are not covered, and to the
patterns. -/
structure Run.Balances (r : Run) (e : Engine) : Prop where
  /-- What the steps took over, and what is not covered, is the selection. -/
  before_eq : (r.applied.map Application.before).sum +
    (r.uncovered e.policy e.selection).length = e.selection.length
  /-- What the steps put down are the patterns. -/
  after_eq : (r.applied.map Application.after).sum = r.patterns.length
  /-- Every step put down a pattern, and no more than it took over files. -/
  counted : ∀ a ∈ r.applied, 1 ≤ a.after ∧ a.after ≤ a.before

namespace Run

variable {e : Engine} {r : Run}

/-- At the start there are no patterns, and nothing is covered. -/
lemma balances_start : start.Balances e where
  before_eq := by simp [start, uncovered, covers]
  after_eq := rfl
  counted := fun _ ha => absurd ha List.not_mem_nil

/-- What a step covers of the selection are the files that it counts. -/
lemma length_uncovered_accept (he : e.IsFaithful) {p : Proposal} (hp : p.IsCounted e r) :
    ((r.accept e.policy p).uncovered e.policy e.selection).length +
      (r.uncovered e.policy p.files).length = (r.uncovered e.policy e.selection).length := by
  have hkey : ∀ f, e.policy.key f = f := fun f => by rw [he.sensitive, CasePolicy.key_sensitive]
  have hfiles : p.files.map e.policy.key = p.files := List.map_id'' hkey _
  -- the files of the step among those of the selection that were not covered
  have hperm : ((r.uncovered e.policy e.selection).filter p.files.contains).Perm
      (r.uncovered e.policy p.files) := by
    apply (List.perm_ext_iff_of_nodup ((he.nodup.filter _).filter _) (hp.nodup.filter _)).2
    intro f
    simp only [List.mem_filter, List.contains_iff_mem]
    constructor
    · rintro ⟨⟨-, hopen⟩, hf⟩
      exact ⟨hf, hopen⟩
    · rintro ⟨hf, hopen⟩
      exact ⟨⟨hp.selected f hf, hopen⟩, hf⟩
  have hsplit : (r.uncovered e.policy e.selection).length =
      ((r.uncovered e.policy e.selection).filter p.files.contains).length +
        ((r.uncovered e.policy e.selection).filter fun f => !p.files.contains f).length :=
    List.length_eq_length_filter_add _
  rw [Engine.uncovered_accept]
  simp only [hfiles, hkey]
  have hlength := hperm.length_eq
  omega

/-- **Counted steps keep the books balanced.** -/
theorem Balances.accept (he : e.IsFaithful) (h : r.Balances e) {p : Proposal}
    (hp : p.IsCounted e r) : (r.accept e.policy p).Balances e := by
  have hlength := length_uncovered_accept he hp
  have hbefore := h.before_eq
  have hafter := h.after_eq
  have hstep := hp.before_eq
  have hpatterns := hp.after_eq
  constructor
  · simp only [Run.accept, List.map_append, List.map_cons, List.map_nil, List.sum_append,
      List.sum_cons, List.sum_nil] at hlength ⊢
    omega
  · simp only [Run.accept, List.map_append, List.map_cons, List.map_nil, List.sum_append,
      List.sum_cons, List.sum_nil, List.length_append]
    omega
  · intro a ha
    rcases List.mem_append.1 ha with ha | ha
    · exact h.counted a ha
    · rw [List.mem_singleton.1 ha]
      exact ⟨hp.one_le, hp.after_le⟩

end Run

/-- **The books of every run are balanced.** -/
theorem Engine.balances_applyRules {e : Engine} (he : e.IsFaithful) (threshold : Nat)
    (rules : List Rule) : (e.applyRules threshold rules .start).Balances e :=
  applyRules_induction (motive := fun r => r.Balances e)
    (fun _ _ hp h => h.accept he (hp.isCounted he)) rules Run.balances_start

/-! ### Selections -/

namespace Compile

variable {context : Context} {selection paths : List Text}

/-- The scans of a scanner are faithful to the selection, if letter case counts. -/
lemma isFaithful_of_scan? {s : Scanner} (hs : s.fs.ListsApart) (hpolicy : s.policy = .sensitive)
    (hselected : s.selected = paths) {d : Text} {scan : DirectoryScan}
    (h : s.scan? d = some scan) : scan.IsFaithful paths := by
  have hkey : ∀ f, s.isSelected f = true → f ∈ paths := by
    intro f hf
    rw [Scanner.isSelected, hpolicy, CasePolicy.key_sensitive, List.contains_iff_mem] at hf
    exact hselected ▸ hf
  refine ⟨Scanner.nodup_files_of_visit hs h, fun hfull f hf => ?_,
    fun {extension group} hgroup => ?_⟩
  · refine hkey f ?_
    rw [Scanner.isSelected, List.contains_iff_mem]
    exact key_mem_of_fullySelected h hfull f hf
  · obtain ⟨hnodup, hcovers⟩ := Scanner.directGroup_spec hs h hgroup
    exact ⟨hnodup, fun hall f hf => hkey f (hcovers hall f hf)⟩

/-- The engine of a normal selection is faithful. -/
lemma isFaithful_engine {s : Scanner} (hs : s.fs.ListsApart) (hpolicy : context.policy = .sensitive)
    (hspolicy : s.policy = .sensitive) (hselected : s.selected = paths) (hnodup : paths.Nodup)
    {e : Engine} (he : engine s context paths = .ok e) : e.IsFaithful := by
  obtain ⟨-, -, hselection, -, hcontext, hcoverage, hscan⟩ := engine_spec he
  constructor
  · rw [Engine.policy, hcontext, hpolicy]
  · rwa [hselection]
  · intro f hf
    rw [hcoverage, hpolicy, Coverage.isSelected, List.contains_iff_mem] at hf
    simpa [Coverage.ofSelection, hselection] using hf
  · intro d scan hsome
    rw [hscan] at hsome
    rw [hselection]
    exact isFaithful_of_scan? hs hspolicy hselected hsome

/-- A selection that a selection tree accepts has an engine. -/
lemma exists_engine {tree : SelectionTree} (h : SelectionTree.ofPaths paths = .ok tree)
    (s : Scanner) (context : Context) : ∃ e, engine s context paths = .ok e := by
  unfold engine Engine.ofSelection
  rw [h]
  exact ⟨_, rfl⟩

/-- No path of a normal selection lies directly inside the project, given as a directory. -/
lemma parent_ne_projectSegment (h : Selection.normalize selection = .ok paths) {f : Text}
    (hf : f ∈ paths) : parent f ≠ Engine.projectSegment := by
  obtain ⟨input, -, rfl, -⟩ := Selection.exists_normalPath h hf
  intro hparent
  unfold parent at hparent
  split at hparent
  · rename_i before behind hsplit
    rw [hparent] at hsplit
    apply Selection.noDots_normalPath input
    rw [(splitLast?_eq_some.1 hsplit).1]
    exact List.prefix_append [.of '.', .of '/'] behind
  · cases hparent

/-- **Every selected file is counted once.** In a tree in memory, a selection in normal form that a
selection tree accepts has an engine, and every plan of that engine has a run, unless it is refused
because the project is a directory of the selection. What the steps of the run take over, and the
literal patterns, are as many as the selected files; what the steps put down, and the literal
patterns, are as many as the patterns. Every step puts down a pattern and no more than it takes over
files, so there are no more patterns than selected files.

**Proof sketch.** The books are balanced when a run begins, and every step of every rule keeps them
balanced. In the end, the files that are not covered are those with literal patterns. -/
theorem run_balances (root project : Text) (additions : List MemoryTree.Addition)
    (ignore : IgnoreRules) {tree : SelectionTree} (hpolicy : context.policy = .sensitive)
    (hnormal : Selection.normalize selection = .ok paths)
    (htree : SelectionTree.ofPaths paths = .ok tree) (plan : RulePlan) :
    ∃ s e, scanner (MemoryTree.build root additions).fileSystem project context ignore paths =
        .ok s ∧ engine s context paths = .ok e ∧
      ((e.runNamed plan.name plan.level (plan.rules.map Rule.name)).outcome = .ok (e.run plan) ∨
        (e.runNamed plan.name plan.level (plan.rules.map Rule.name)).outcome =
            .error .projectScan ∧ Engine.projectSegment ∈ tree.directories) ∧
      let run := e.run plan
      let literals := e.literals (e.applyRules (e.thresholdOf plan.level) plan.rules .start)
      (run.applied.map Application.before).sum + literals.length = paths.length ∧
        (run.applied.map Application.after).sum + literals.length = run.patterns.length ∧
        (∀ a ∈ run.applied, 1 ≤ a.after ∧ a.after ≤ a.before) ∧
        run.patterns.length ≤ paths.length := by
  let s : Scanner := ⟨(MemoryTree.build root additions).fileSystem, project,
    paths.map context.policy.key, ignore, context.policy⟩
  obtain ⟨e, he⟩ := exists_engine htree s context
  obtain ⟨tree', htree', hselection, hcandidates, -, -, -⟩ := engine_spec he
  obtain rfl : tree = tree' := Except.ok.inj (htree.symm.trans htree')
  have hselected : s.selected = paths := by
    show paths.map context.policy.key = paths
    rw [hpolicy]
    exact CasePolicy.map_key_sensitive paths
  have hfaithful : e.IsFaithful :=
    isFaithful_engine (MemoryTree.listsApart_build root additions) hpolicy hpolicy hselected
      (normalize_spec hnormal).2 he
  obtain ⟨hbefore, hafter, hcounted⟩ :=
    Engine.balances_applyRules hfaithful (e.thresholdOf plan.level) plan.rules
  refine ⟨s, e, rfl, he, ?_, ?_⟩
  · by_cases hproject : Engine.projectSegment ∈ tree.directories
    · rcases e.runNamed_eq_run_or plan with hrun | ⟨hrefused, -⟩
      · exact .inl hrun
      · exact .inr ⟨hrefused, hproject⟩
    · refine .inl (Engine.runNamed_eq_run ⟨?_, ?_⟩ plan)
      · rw [hcandidates, SelectionTree.deepestFirst, mem_sortBy]
        exact hproject
      · rw [hselection]
        exact fun f hf => parent_ne_projectSegment hnormal hf
  · intro run literals
    have hliterals : literals.length = ((e.applyRules (e.thresholdOf plan.level) plan.rules
        .start).uncovered e.policy e.selection).length := List.length_map _
    have hpatterns : run.patterns.length = (e.applyRules (e.thresholdOf plan.level) plan.rules
        .start).patterns.length + literals.length := List.length_append
    have hle : (run.applied.map Application.after).sum ≤
        (run.applied.map Application.before).sum :=
      List.sum_le_sum fun a ha => (hcounted a ha).2
    have happlied : run.applied =
      (e.applyRules (e.thresholdOf plan.level) plan.rules .start).applied := rfl
    have hpaths : paths.length = e.selection.length := by rw [hselection]
    rw [happlied] at hle ⊢
    exact ⟨by omega, by omega, hcounted, by omega⟩

/-- Two files of one extension, and one without. -/
def threeFiles : List MemoryTree.Addition :=
  [.file [.of 's', .of '/', .of 'a', .of '.', .of 't'] [],
    .file [.of 's', .of '/', .of 'b', .of '.', .of 't'] [],
    .file [.of 's', .of '/', .of 'm'] []]

/-- The files of one extension, and a file that is not there. -/
def partlyMissing : List Text :=
  [[.of 'g', .of 'o', .of 'n', .of 'e'], [.of 's', .of '/', .of 'a', .of '.', .of 't'],
    [.of 's', .of '/', .of 'b', .of '.', .of 't']]

/-- Extensions first, then directories with few files that are not selected. -/
def extensionsFirst : RulePlan :=
  ⟨"sample".toText, some .balanced, [.directoryExtension, .nearFullExclusion, .fullDirectory]⟩

/-- The books of the sample: one pattern stands for two of the three files, and the third has a
literal pattern. -/
theorem run_balances_partlyMissing :
    ∃ s e, scanner (MemoryTree.build [.of '/', .of 'p'] threeFiles).fileSystem
        [.of '/', .of 'p'] sampleContext
        ⟨[], ⟨[]⟩⟩ partlyMissing = .ok s ∧ engine s sampleContext partlyMissing = .ok e ∧
      ((e.run extensionsFirst).applied.map Application.before).sum + (e.literals (e.applyRules
        (e.thresholdOf extensionsFirst.level) extensionsFirst.rules .start)).length = 3 ∧
      (e.run extensionsFirst).patterns =
        [[.of 's', .of '/', .of '*', .of '.', .of 't'], [.of 'g', .of 'o', .of 'n', .of 'e']] := by
  have hpolicy : sampleContext.policy = .sensitive := rfl
  have hnormal : Selection.normalize partlyMissing = .ok partlyMissing := by decide +kernel
  obtain ⟨tree, htree⟩ : ∃ tree, SelectionTree.ofPaths partlyMissing = .ok tree := ⟨_, rfl⟩
  obtain ⟨s, e, hs, he, -, hbefore, -, -, -⟩ :=
    run_balances [.of '/', .of 'p'] [.of '/', .of 'p'] threeFiles
    ⟨[], ⟨[]⟩⟩ hpolicy hnormal htree extensionsFirst
  refine ⟨s, e, hs, he, hbefore, ?_⟩
  cases hs
  cases he
  decide +kernel

end Compile

end GlobPreset
