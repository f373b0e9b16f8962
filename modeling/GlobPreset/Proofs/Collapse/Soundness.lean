import Mathlib.Data.List.Perm.Subperm
import GlobPreset.Compile
import GlobPreset.Proofs.Collapse.Rules
import GlobPreset.Proofs.Pattern.Stored
import GlobPreset.Proofs.Selection.Tree

/-!
# Runs keep the selection

Whatever rules a plan applies, in whatever order and however often, the raw patterns of its run
expand to the selection that the run began with.

## Main definitions

* `Run.list` — the patterns of a run as a pattern list.
* `Compile.AreDistinct` — ordinary paths of different keys, none of which leads to another one.

## Main results

* `Compile.engine_eq_ok` — distinct ordinary paths have an engine that works on the project.
* `Engine.Accounts.selects_of_picks` — patterns that account for the selection select its files.
* `Engine.Accounts.selects_iff` — if it has nothing but files, they select exactly these.
* `Engine.runNamed_eq_run` — a plan given by the names of its rules is never refused.
* `Compile.expand_run` — **every run expands to the selection**.
-/

set_option autoImplicit false

namespace GlobPreset

open GlobPreset.Path

/-- The patterns of a run, those that select apart from those that exclude. -/
def Run.list (r : Run) : PatternList := .ofRaw r.patterns

/-! ### Selecting by patterns that account for a selection -/

namespace Engine.Accounts

open PatternList

variable {e : Engine} {s : Scanner} {patterns keys : List Text}

/-- A selecting pattern of a run. -/
lemma admits_or_misses_of_mem (h : e.Accounts s patterns keys) {p : Text}
    (hp : p ∈ (ofRaw patterns).includes) :
    (∃ g, p = g.text ∧ e.Admits s patterns g) ∨
      ∃ m, p = Pattern.escapeLiteral m ∧ e.Misses s m := by
  obtain ⟨hmem, hmark⟩ := List.mem_filter.1 hp
  rcases h.admitted p hmem with hg | ⟨m, rfl, -⟩ | hm
  · exact .inl hg
  · cases hmark
  · exact .inr hm

/-- A selecting pattern of a run is that of a glob. -/
lemma isProper_of_mem (h : e.Accounts s patterns keys) {p : Text}
    (hp : p ∈ (ofRaw patterns).includes) :
    ∃ g : Glob, p = g.text ∧ g.IsProper ∧ Pattern.IsSelecting (s.policy.key p) := by
  rcases h.admits_or_misses_of_mem hp with ⟨g, rfl, hg⟩ | ⟨m, rfl, hm⟩
  · exact ⟨g, rfl, hg.proper, hg.selecting⟩
  · exact ⟨.file m, (Glob.text_file m).symm, hm.ordinary,
      (Pattern.findsBy_escapeLiteral s.policy hm.ordinary).1⟩

/-- A selecting pattern of a run for files stands for files. -/
lemma admits_of_mem (h : e.Accounts s patterns keys) (hall : ∀ p ∈ e.selection, e.Picks s p)
    {p : Text} (hp : p ∈ (ofRaw patterns).includes) : ∃ g, p = g.text ∧ e.Admits s patterns g :=
  (h.admits_or_misses_of_mem hp).resolve_right fun ⟨_, _, hm⟩ => hm.missing (hall _ hm.selected).2

/-- An excluding pattern of a run. -/
lemma spares_of_mem (h : e.Accounts s patterns keys) {x : Text}
    (hx : x ∈ (ofRaw patterns).excludes) : ∃ m, x = Pattern.escapeLiteral m ∧ e.Spares s m := by
  obtain ⟨p, hp, rfl⟩ := List.mem_map.1 hx
  obtain ⟨hmem, hmark⟩ := List.mem_filter.1 hp
  rcases h.admitted p hmem with ⟨g, rfl, hg⟩ | ⟨m, rfl, hm⟩ | ⟨m, rfl, hm⟩
  · rw [hg.proper.isExcluded_text] at hmark
    cases hmark
  · exact ⟨m, rfl, hm⟩
  · rw [(isStored_escapeLiteral hm.ordinary).isExcluded_eq] at hmark
    cases hmark

/-- The patterns of a run are read as they are written. -/
lemma alternatives_of_mem (h : e.Accounts s patterns keys) {p : Text}
    (hp : p ∈ (ofRaw patterns).includes ++ (ofRaw patterns).excludes) :
    Pattern.alternatives p = [p] ∧ Pattern.IsSelecting (s.policy.key p) ∧
      ∀ q ∈ Pattern.readings p, unsafeCause? q = none := by
  rcases List.mem_append.1 hp with hp | hp
  · obtain ⟨g, rfl, hg, hselecting⟩ := h.isProper_of_mem hp
    exact ⟨hg.alternatives_text, hselecting, hg.readings_safe⟩
  · obtain ⟨m, rfl, hm⟩ := h.spares_of_mem hp
    have hproper : (Glob.file m).IsProper := hm.ordinary
    have hselecting := (Pattern.findsBy_escapeLiteral s.policy hm.ordinary).1
    rw [← Glob.text_file] at hselecting ⊢
    exact ⟨hproper.alternatives_text, hselecting, hproper.readings_safe⟩

/-- The patterns of a run make a readable list. -/
lemma isReadable (h : e.Accounts s patterns keys) :
    (ofRaw patterns).IsReadable s.policy := by
  refine isReadable_iff.2 fun p hp => ?_
  obtain ⟨halone, hselecting, hsafe⟩ := h.alternatives_of_mem hp
  refine ⟨hsafe, fun a ha => ?_⟩
  rw [halone, List.mem_singleton] at ha
  exact ha ▸ hselecting

/-- No exclusion of a run matches a file of the selection. -/
lemma not_excluded (h : e.Accounts s patterns keys) {x a f : Text}
    (hx : x ∈ (ofRaw patterns).excludes) (ha : a ∈ Pattern.alternatives x) (hf : e.Picks s f) :
    Pattern.findsBy s.policy a f = false := by
  rw [(h.alternatives_of_mem (List.mem_append_right _ hx)).1, List.mem_singleton] at ha
  obtain ⟨m, rfl, hm⟩ := h.spares_of_mem hx
  exact ha ▸ hm.spares f hf

/-- **Patterns that account for the selection select its files.** -/
theorem selects_of_picks (h : e.Accounts s patterns (e.selection.map s.policy.key)) {f : Text}
    (hf : e.Picks s f) : (ofRaw patterns).Selects s.policy s.fs s.root s.ignore f := by
  obtain ⟨g, hg, hadmits, hwalk, hfind⟩ := h.covered f hf (List.mem_map_of_mem hf.1)
  refine ⟨⟨g.text, ?_, g.text, ?_, hfind, ?_⟩, fun x hx a ha => h.not_excluded hx ha hf⟩
  · exact List.mem_filter.2 ⟨hg, by simp [hadmits.proper.isExcluded_text]⟩
  · rw [hadmits.proper.alternatives_text]
    exact List.mem_singleton_self _
  · rw [hadmits.proper.literalBase_text]
    exact hwalk

/-- **Patterns that account for a selection of files select exactly these.** -/
theorem selects_iff (h : e.Accounts s patterns (e.selection.map s.policy.key))
    (hall : ∀ p ∈ e.selection, e.Picks s p) (f : Text) :
    (ofRaw patterns).Selects s.policy s.fs s.root s.ignore f ↔ f ∈ e.selection := by
  refine ⟨?_, fun hf => h.selects_of_picks (hall f hf)⟩
  rintro ⟨⟨p, hp, a, ha, hfind, hwalk⟩, hkept⟩
  obtain ⟨g, rfl, hg⟩ := h.admits_of_mem hall hp
  rw [hg.proper.alternatives_text, List.mem_singleton] at ha
  subst ha
  rw [hg.proper.literalBase_text] at hwalk
  rcases hg.sound hall f ⟨hwalk, hfind⟩ with hf | ⟨m, hm, hfind'⟩
  · exact hf
  · -- the file would be excluded
    have hx : Pattern.escapeLiteral m ∈ (ofRaw patterns).excludes :=
      List.mem_map.2 ⟨_, List.mem_filter.2 ⟨hm, rfl⟩, rfl⟩
    have hself : Pattern.escapeLiteral m ∈ Pattern.alternatives (Pattern.escapeLiteral m) := by
      rw [(h.alternatives_of_mem (List.mem_append_right _ hx)).1]
      exact List.mem_singleton_self _
    rw [hkept _ hx _ hself] at hfind'
    cases hfind'

end Engine.Accounts

/-! ### Engines of selections -/

/-- A selection of ordinary files of a project. -/
def FileSystem.IsSelection (fs : FileSystem) (root : Text) (selection : List Text) : Prop :=
  ∀ f ∈ selection, IsOrdinary f ∧ fs.HasFile root f

/-- No file of a project leads to another one. -/
lemma isPrefixFree_of_files {fs : FileSystem} {root : Text} (hp : fs.IsProject root)
    {files : List Text} (h : ∀ f ∈ files, fs.HasFile root f) :
    SelectionTree.IsPrefixFree (files.map segments) := by
  intro l hl rest hrest hmem
  obtain ⟨f, hf, rfl⟩ := List.mem_map.1 hl
  obtain ⟨g, hg, hsegs⟩ := List.mem_map.1 hmem
  have hnone := hp.not_below_file hrest (hsegs ▸ (h g hg).1) (h f hf).kind?
  rw [← hsegs, (h g hg).kind?] at hnone
  cases hnone

namespace Compile

variable {fs : FileSystem} {root : Text} {context : Context} {ignore : IgnoreRules}
  {selection : List Text}

/-! ### Paths of different keys -/

/-- Every path that is kept is one of the paths. -/
lemma distinctPaths_sublist (policy : CasePolicy) (paths : List Text) :
    (distinctPaths policy paths).Sublist paths := by
  cases policy with
  | sensitive => exact List.Sublist.refl paths
  | insensitive =>
    change (distinctPaths.go paths).Sublist paths
    induction paths with
    | nil => exact List.Sublist.refl []
    | cons p rest ih => exact (List.filter_sublist.trans ih).cons_cons p

/-- The paths that are kept have different keys. -/
lemma nodup_map_distinctPaths {policy : CasePolicy} {paths : List Text} (h : paths.Nodup) :
    ((distinctPaths policy paths).map policy.key).Nodup := by
  cases policy with
  | sensitive => exact h.map fun _ _ heq => heq
  | insensitive =>
    change ((distinctPaths.go paths).map Text.fold).Nodup
    induction paths with
    | nil => exact List.nodup_nil
    | cons p rest ih =>
      rw [distinctPaths.go, List.map_cons, List.nodup_cons]
      refine ⟨fun hmem => ?_, (ih (List.nodup_cons.1 h).2).sublist (List.filter_sublist.map _)⟩
      obtain ⟨q, hq, hkey⟩ := List.mem_map.1 hmem
      simpa [hkey] using (List.mem_filter.1 hq).2

/-- Paths of different keys are all kept. -/
lemma distinctPaths_eq_self {policy : CasePolicy} {paths : List Text}
    (h : (paths.map policy.key).Nodup) : distinctPaths policy paths = paths := by
  cases policy with
  | sensitive => rfl
  | insensitive =>
    change distinctPaths.go paths = paths
    induction paths with
    | nil => rfl
    | cons p rest ih =>
      rw [List.map_cons, List.nodup_cons] at h
      rw [distinctPaths.go, ih h.2, List.filter_eq_self.2]
      intro q hq
      have hne : q.fold ≠ p.fold := fun heq => h.1 (List.mem_map.2 ⟨q, hq, heq⟩)
      simpa using hne

/-- The paths of an ordinary selection: the first of each key. -/
lemma pathsOf_eq_distinctPaths (h : ∀ f ∈ selection, IsOrdinary f) :
    pathsOf context selection =
      .ok (distinctPaths context.policy (Text.sort (dedupe selection))) := by
  rw [pathsOf, Selection.normalize_eq_ok fun f hf => (h f hf).toIsTame]
  rfl

/-- Ordinary paths of different keys, none of which leads to another one. -/
structure AreDistinct (policy : CasePolicy) (paths : List Text) : Prop where
  /-- They are ordinary. -/
  ordinary : ∀ f ∈ paths, IsOrdinary f
  /-- No two are compared alike. -/
  keys_nodup : (paths.map policy.key).Nodup
  /-- None leads to another one. -/
  isPrefixFree : SelectionTree.IsPrefixFree (paths.map segments)

/-- What is kept of ordinary paths, none of which leads to another one. -/
lemma areDistinct_distinctPaths {policy : CasePolicy} {paths : List Text} (hnodup : paths.Nodup)
    (h : ∀ f ∈ paths, IsOrdinary f) (hfree : SelectionTree.IsPrefixFree (paths.map segments)) :
    AreDistinct policy (distinctPaths policy paths) := by
  have hsub := (distinctPaths_sublist policy paths).subset
  refine ⟨fun f hf => h f (hsub hf), nodup_map_distinctPaths hnodup, ?_⟩
  intro l hl rest hrest hmem
  exact hfree l (List.map_subset segments hsub hl) rest hrest (List.map_subset segments hsub hmem)

/-- A selection of a project is compiled as it is, sorted and without repetitions. -/
lemma pathsOf_eq_ok (hpolicy : context.policy = .sensitive)
    (hsel : fs.IsSelection root selection) :
    pathsOf context selection = .ok (Text.sort (dedupe selection)) := by
  rw [pathsOf_eq_distinctPaths fun f hf => (hsel f hf).1, hpolicy]
  rfl

/-- **The files of a selection are all kept** if the paths of the project are told apart. -/
lemma pathsOf_of_isSelection (hp : fs.IsProject root)
    (hapart : fs.IsToldApart root context.policy) (hsel : fs.IsSelection root selection) :
    pathsOf context selection = .ok (Text.sort (dedupe selection)) ∧
      AreDistinct context.policy (Text.sort (dedupe selection)) := by
  have hfile : ∀ f ∈ Text.sort (dedupe selection), IsOrdinary f ∧ fs.HasFile root f :=
    fun f hf => hsel f (by simpa using hf)
  have hleads : ∀ f ∈ Text.sort (dedupe selection), fs.Leads root (segments f) := by
    intro f hf
    refine hp.leads (hfile f hf).1.areNames ?_
    rw [(hfile f hf).2.kind?]
    rfl
  have hnodup := Text.nodup_sort.2 (nodup_dedupe selection)
  have hself : distinctPaths context.policy (Text.sort (dedupe selection)) =
      Text.sort (dedupe selection) :=
    distinctPaths_eq_self (List.Nodup.map_on (fun f hf g hg heq =>
      hapart.eq_of_key_eq (hfile f hf).1.isPlain (hfile g hg).1.isPlain (hleads f hf) (hleads g hg)
        heq) hnodup)
  have hdistinct : AreDistinct context.policy
      (distinctPaths context.policy (Text.sort (dedupe selection))) :=
    areDistinct_distinctPaths hnodup (fun f hf => (hfile f hf).1)
      (isPrefixFree_of_files hp fun f hf => (hfile f hf).2)
  rw [pathsOf_eq_distinctPaths fun f hf => (hsel f hf).1]
  exact ⟨congrArg Except.ok hself, hself ▸ hdistinct⟩

/-- **Distinct paths have an engine**, which works on the scans of a project whose paths are told
apart. -/
theorem engine_eq_ok (hp : fs.IsProject root) (hord : fs.HasOrdinaryFiles root)
    (hapart : fs.IsToldApart root context.policy) {paths : List Text}
    (hpaths : AreDistinct context.policy paths) {s : Scanner} (hfs : s.fs = fs)
    (hroot : s.root = root) (hs : s.policy = context.policy) :
    ∃ e, engine s context paths = .ok e ∧ e.WorksOn s ∧ e.selection = paths ∧
      e.context = context := by
  subst hfs hroot
  have hplain : ∀ f ∈ paths, IsPlain f := fun f hf => (hpaths.ordinary f hf).isPlain
  obtain ⟨tree, htree, hwithin⟩ := SelectionTree.ofPaths_eq_ok hplain hpaths.isPrefixFree
  refine ⟨{
      selection := paths
      candidates := tree.deepestFirst
      context
      coverage := .ofSelection context.policy paths
      scan? := recallScan (([] :: tree.deepestFirst).map (fun d => (d, s.scan? d))) s.scan? },
    ?_, ?_, rfl, rfl⟩
  · rw [engine, Engine.ofSelection, htree]
    rfl
  · exact {
      policy_eq := hs.symm
      project := hp
      apart := hs ▸ hapart
      ordinary := hord
      scan?_eq := recallScan_map s.scan? _
      coverage_eq := by rw [hs]
      selected := hpaths.ordinary
      keys_nodup := hs ▸ hpaths.keys_nodup
      candidate := fun d hd => SelectionTree.mem_deepestFirst hplain hwithin hd }

end Compile

/-! ### Plans by name -/

namespace Engine

variable {e : Engine} {s : Scanner}

/-- A rule is found by its name. -/
lemma ofName?_name (rule : Rule) : Rule.ofName? rule.name = some rule := by
  cases rule <;> decide

/-- Neither a directory of the selection nor one of a selected file is the project. -/
structure SparesProject (e : Engine) : Prop where
  /-- The project is no directory of the selection. -/
  candidates : projectSegment ∉ e.candidates
  /-- No selected file lies directly inside the project, given as a directory. -/
  parents : ∀ f ∈ e.selection, parent f ≠ projectSegment

/-- An engine that works on a project never makes the project itself a directory to be replaced. -/
lemma WorksOn.sparesProject (hw : e.WorksOn s) : e.SparesProject := by
  have htame : ¬ IsTame projectSegment := fun h =>
    absurd rfl (h.areNames projectSegment List.mem_cons_self).ne_dot
  refine ⟨fun h => htame (hw.isTame_candidate h), fun f hf hparent => htame ?_⟩
  rw [← hparent]
  refine (hw.selected f hf).toIsTame.parent ?_
  rw [hparent]
  exact List.cons_ne_nil _ _

/-- No rule asks for the project as a directory. -/
lemma asksForProject_eq_false (h : e.SparesProject) (threshold : Nat) (r : Run) (rule : Rule) :
    e.asksForProject threshold r rule = false := by
  have hcandidates := h.candidates
  unfold asksForProject
  cases rule with
  | fullDirectory => simpa [requests] using hcandidates
  | nearFullExclusion =>
    rw [requests]
    split
    · rfl
    · simp [hcandidates]
  | globalExtension => rfl
  | directoryExtension =>
    have hnot : projectSegment ∉ e.requests threshold r .directoryExtension := by
      intro hmem
      obtain ⟨group, hgroup, hdir⟩ := List.mem_map.1 hmem
      rw [mem_sortBy, extensionsByDirectory] at hgroup
      obtain ⟨ext, hext⟩ := List.exists_mem_of_ne_nil _ (mem_groupPairs.1 hgroup).2
      rw [(mem_groupPairs.1 hgroup).1, mem_valuesOf] at hext
      obtain ⟨f, hf, hpair⟩ := List.mem_filterMap.1 hext
      split at hpair
      · cases hpair
      · have hparent := (Prod.mk.inj (Option.some.inj hpair)).1
        exact h.parents f (List.mem_filter.1 hf).1 (hparent.trans hdir)
    simp [hnot]

/-- A plan given by the names of its rules gives the run of the rules, or is refused because a rule
asks for the project as a directory. -/
lemma runNamed_eq_run_or (plan : RulePlan) :
    (e.runNamed plan.name plan.level (plan.rules.map Rule.name)).outcome = .ok (e.run plan) ∨
      (e.runNamed plan.name plan.level (plan.rules.map Rule.name)).outcome =
          .error .projectScan ∧
        ∃ threshold r rule, e.asksForProject threshold r rule = true := by
  have key : ∀ (rules : List Rule) (r : Run),
      (e.applyNamed plan.name (e.thresholdOf plan.level) (rules.map Rule.name) r).outcome =
          .ok (e.finish (e.applyRules (e.thresholdOf plan.level) rules r)) ∨
        (e.applyNamed plan.name (e.thresholdOf plan.level) (rules.map Rule.name) r).outcome =
            .error .projectScan ∧
          ∃ threshold r rule, e.asksForProject threshold r rule = true := by
    intro rules
    induction rules with
    | nil => exact fun _ => .inl rfl
    | cons rule rules ih =>
      intro r
      rw [List.map_cons, applyNamed, ofName?_name]
      cases hasks : e.asksForProject (e.thresholdOf plan.level) r rule with
      | true => exact .inr ⟨by simp [hasks], _, r, rule, hasks⟩
      | false =>
        simp only [hasks, Bool.false_eq_true, if_false]
        exact ih _
  exact key plan.rules .start

/-- **A plan given by the names of its rules is never refused**: its run is that of the rules. -/
theorem runNamed_eq_run (h : e.SparesProject) (plan : RulePlan) :
    (e.runNamed plan.name plan.level (plan.rules.map Rule.name)).outcome = .ok (e.run plan) := by
  rcases e.runNamed_eq_run_or plan with hrun | ⟨-, threshold, r, rule, hasks⟩
  · exact hrun
  · rw [asksForProject_eq_false h] at hasks
    cases hasks

end Engine

/-! ### Expanding a run -/

namespace Compile

/-- **Every run expands to the selection.** For an ordinary selection of a memory tree, the engine
of the selection exists, and whatever the plan: its run is not refused, the raw patterns expand to
the selection, sorted and without duplicates, no exclusion matches a selected file, and a pattern
with a wildcard matches as many selected files as the context asks for at least.

**Proof sketch.** Every proposal of every rule accounts for its files, so the run does; and patterns
that account for the selection select exactly its files. A pattern with a wildcard comes from a
proposal, whose files it matches. -/
theorem expand_run {t : MemoryTree} (ht : t.WellFormed)
    (hord : t.fileSystem.HasOrdinaryFiles t.root.toText) {context : Context}
    (hpolicy : context.policy = .sensitive) {ignore : IgnoreRules}
    (hignore : context.ignoreRules = .ok ignore) {selection : List Text}
    (hsel : t.fileSystem.IsSelection t.root.toText selection) :
    ∃ paths s e, pathsOf context selection = .ok paths ∧
      scanner t.fileSystem t.root.toText context ignore paths = .ok s ∧
      engine s context paths = .ok e ∧
      ∀ plan : RulePlan,
        (e.runNamed plan.name plan.level (plan.rules.map Rule.name)).outcome =
          .ok (e.run plan) ∧
        Expand.outcome t.fileSystem t.root.toText context (e.run plan).list =
          .ok (Text.sort (dedupe selection)) ∧
        (∃ m, Matcher.ofBracedList .sensitive (e.run plan).list.excludes = .ok m ∧
          ∀ f ∈ selection, m.accepts f = false) ∧
        ∀ p ∈ (e.run plan).list.includes, Pattern.hasWildcard p = true →
          ∃ m, Matcher.ofBraced .sensitive p = .ok m ∧
            context.minFiles ≤ ((dedupe selection).filter m.accepts).length := by
  have hp := MemoryTree.isProject ht ht.root
  have hapart : t.fileSystem.IsToldApart t.root.toText context.policy :=
    hpolicy ▸ FileSystem.isToldApart_sensitive
  obtain ⟨hof, hpaths⟩ := pathsOf_of_isSelection hp hapart hsel
  let s : Scanner := ⟨t.fileSystem, t.root.toText,
    (Text.sort (dedupe selection)).map context.policy.key, ignore, context.policy⟩
  obtain ⟨e, he, hw, hselection, hcontext⟩ := engine_eq_ok hp hord hapart hpaths
    (s := s) rfl rfl rfl
  have hmem : ∀ f, f ∈ e.selection ↔ f ∈ selection := by
    intro f
    rw [hselection, Text.mem_sort, mem_dedupe]
  have hpicks : ∀ f ∈ e.selection, e.Picks s f := fun f hf => ⟨hf, (hsel f ((hmem f).1 hf)).2⟩
  refine ⟨_, _, e, hof, rfl, he, fun plan => ?_⟩
  have haccounts := Engine.accounts_run hw plan
  refine ⟨Engine.runNamed_eq_run hw.sparesProject plan, ?_, ?_, fun p hp hwild => ?_⟩
  · exact Expand.outcome_eq_sort hignore haccounts.isReadable fun f =>
      (haccounts.selects_iff hpicks f).trans (hmem f)
  · have hselecting : ∀ a ∈ (e.run plan).list.excludes.flatMap Pattern.alternatives,
        Pattern.IsSelecting (context.policy.key a) := by
      intro a ha
      obtain ⟨x, hx, ha⟩ := List.mem_flatMap.1 ha
      exact haccounts.isReadable.selecting x (List.mem_append_right _ hx) a ha
    obtain ⟨m, hm, haccepts⟩ := Matcher.ofPatterns_eq_ok hselecting
    rw [hpolicy] at hm
    refine ⟨m, hm, fun f hf => ?_⟩
    rw [haccepts, List.any_eq_false]
    intro a ha
    obtain ⟨x, hx, ha⟩ := List.mem_flatMap.1 ha
    have hnot := haccounts.not_excluded hx ha (hpicks f ((hmem f).2 hf))
    exact Bool.not_eq_true _ ▸ hnot
  · obtain ⟨g, rfl, hg⟩ := haccounts.admits_of_mem hpicks hp
    obtain ⟨files, hnodup, hmin, hfiles⟩ :=
      hg.enough hpicks (by simpa [g.hasWildcard_text] using hwild)
    have hselecting : ∀ a ∈ [g.text], Pattern.IsSelecting (context.policy.key a) := by
      simpa using hg.selecting
    obtain ⟨m, hm, haccepts⟩ := Matcher.ofPatterns_eq_ok hselecting
    rw [hpolicy] at hm
    refine ⟨m, by rw [Matcher.ofBraced, hg.proper.alternatives_text, hm], ?_⟩
    have hsub : files ⊆ (dedupe selection).filter m.accepts := by
      intro f hf
      obtain ⟨hf, hfind⟩ := hfiles f hf
      rw [List.mem_filter, mem_dedupe, haccepts, List.any_cons, hfind]
      exact ⟨(hmem f).1 hf, rfl⟩
    calc context.minFiles = e.context.minFiles := by rw [hcontext]
      _ ≤ files.length := hmin
      _ ≤ ((dedupe selection).filter m.accepts).length := (hnodup.subperm hsub).length_le

/-! ### A sample -/

/-- A project with a directory of which one file is not selected, and a selected file that walks
leave out. -/
def sampleTree : MemoryTree :=
  .build [.of '/', .of 'p'] [.file [.of 's', .of '/', .of 'a', .of '.', .of 't'] [],
    .file [.of 's', .of '/', .of '[', .of 'b', .of '.', .of 't'] [],
    .file [.of 's', .of '/', .of 'm', .of ' '] [],
    .file [.of 's', .of '/', .of 'o', .of '/', .of 'c'] []]

/-- A context that leaves out one directory name. -/
def sampleContext : Context :=
  { Context.standard with ignoredDirectories := [[.of 'o']], ignoredFiles := [] }

/-- All files of the sample but one. -/
def sampleSelection : List Text :=
  [[.of 's', .of '/', .of 'o', .of '/', .of 'c'], [.of 's', .of '/', .of 'a', .of '.', .of 't'],
    [.of 's', .of '/', .of '[', .of 'b', .of '.', .of 't']]

/-- The sample tree is well-formed. -/
lemma wellFormed_sampleTree : sampleTree.WellFormed :=
  MemoryTree.wellFormed_build rfl _ (by decide)

/-- The files of the sample tree have ordinary names. -/
lemma hasOrdinaryFiles_sampleTree :
    sampleTree.fileSystem.HasOrdinaryFiles sampleTree.root.toText :=
  MemoryTree.IsOrdinary.hasOrdinaryFiles wellFormed_sampleTree (by decide) (by decide)

/-- The sample selection is one of files of the sample tree. -/
lemma isSelection_sampleSelection :
    sampleTree.fileSystem.IsSelection sampleTree.root.toText sampleSelection := by
  have hall : ∀ f ∈ sampleSelection, IsOrdinary f ∧
      sampleTree.fileSystem.isFile (absolute sampleTree.root.toText f) = true := by decide
  exact fun f hf => ⟨(hall f hf).1, (hall f hf).1.isPlain, (hall f hf).2⟩

/-- Every run expands to the sample selection. -/
theorem expand_run_sampleSelection :
    ∃ s e, engine s sampleContext (Text.sort sampleSelection) = .ok e ∧
      ∀ plan : RulePlan, Expand.outcome sampleTree.fileSystem sampleTree.root.toText
        sampleContext (e.run plan).list = .ok (Text.sort sampleSelection) := by
  have hignore : sampleContext.ignoreRules = .ok ⟨[[.of 'o']], ⟨[]⟩⟩ := rfl
  obtain ⟨paths, s, e, hpaths, -, he, hall⟩ := expand_run wellFormed_sampleTree
    hasOrdinaryFiles_sampleTree rfl hignore isSelection_sampleSelection
  have hsort : pathsOf sampleContext sampleSelection = .ok (Text.sort sampleSelection) := by decide
  rw [hsort] at hpaths
  cases hpaths
  exact ⟨s, e, he, fun plan => (hall plan).2.1⟩

end Compile

end GlobPreset
