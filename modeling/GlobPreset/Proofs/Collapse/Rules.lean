import GlobPreset.Proofs.Collapse.Account
import GlobPreset.Proofs.Collapse.Steps

/-!
# Rules keep their accounts

Every proposal of every rule accounts for its files, so a run of any rules in any order accounts for
what it covers; and with the literal patterns at its end, for the whole selection.

## Main results

* `Engine.accounts_proposeDirectory`, `Engine.accounts_proposeNearFull`,
  `Engine.accounts_proposeExtension`, `Engine.accounts_proposeGlobal` — one proposal of each rule.
* `Engine.Proposes.accounts` — **every proposal accounts for its files**.
* `Engine.accounts_run` — **the run of a plan accounts for the selection**.
-/

set_option autoImplicit false

namespace GlobPreset

open GlobPreset.Path Text

/-! ### Extensions of paths -/

/-- The extension of a path without line ends is plain exactly as it stands. -/
lemma isExtension_of_isPlainExtension {path : Text} (hpath : IsTame path)
    (h : Engine.isPlainExtension (extension path) = true) : IsExtension (extension path) := by
  have hfeed : .of '\n' ∉ extension path := by
    intro hmem
    have hb := hpath.noBoundary
    rw [List.any_eq_false] at hb
    exact hb _ (mem_of_mem_extension hmem) (by decide)
  have hends : endsWith (extension path) [.of '\n'] = false := by
    rw [Bool.eq_false_iff, ne_eq, endsWith_iff]
    intro hsuffix
    exact hfeed (hsuffix.subset List.mem_cons_self)
  unfold Engine.isPlainExtension at h
  simp only [hends, Bool.false_eq_true, if_false, Bool.and_eq_true, Bool.not_eq_true',
    List.isEmpty_eq_false_iff, List.all_eq_true] at h
  exact ⟨h.1, h.2⟩

/-- What contains a tame path is tame. -/
lemma Path.IsTame.parent {path : Text} (h : IsTame path) (hne : parent path ≠ []) :
    IsTame (parent path) := by
  unfold Path.parent at hne ⊢
  split
  · rename_i before behind hsplit
    rw [(splitLast?_eq_some.1 hsplit).1] at h
    exact h.left
  · rename_i hnone
    rw [hnone] at hne
    exact absurd rfl hne

namespace Engine

variable {e : Engine} {s : Scanner}

/-! ### Places -/

/-- A candidate is a tame path. -/
lemma WorksOn.isTame_candidate (hw : e.WorksOn s) {d : Text} (hd : d ∈ e.candidates) :
    IsTame d := by
  obtain ⟨l, rest, hl, hrest, rfl, hmem, -⟩ := hw.candidate d hd
  exact (hw.selected _ hmem).toIsTame.left_ofSegments hl hrest

/-- The files of a scan at a tame path, or of the project, are ordinary, and a group of files
directly inside the directory is a part of them. -/
lemma WorksOn.files_spec (hw : e.WorksOn s) {d : Text} (hd : d = [] ∨ IsTame d)
    {scan : DirectoryScan} (hscan : e.scan? d = some scan) :
    (∀ f ∈ scan.files, IsOrdinary f) ∧
      ∀ {ext group}, lookup? ext scan.direct = some group → group.Sublist scan.files := by
  obtain ⟨names, hn, rfl⟩ : ∃ names, AreNames names ∧ d = ofSegments names := by
    rcases hd with rfl | hd
    · exact ⟨[], areNames_nil, rfl⟩
    · exact ⟨segments d, hd.areNames, (ofSegments_segments d).symm⟩
  rw [hw.scan?_eq] at hscan
  refine ⟨fun f hf => (hw.scanned_spec hn hscan hf).1, fun hgroup => ?_⟩
  have hsurvey := Scanner.surveys_of_scan? hw.project hn hscan
  rw [(hsurvey.direct.1 (Text.mem_of_lookup?_eq_some hgroup)).2]
  exact List.filter_sublist

/-! ### Proposals -/

/-- The proposal of a directory accounts for its files. -/
lemma accounts_proposeDirectory (hw : e.WorksOn s) {r : Run} {d : Text}
    (hd : d ∈ e.candidates) {p : Proposal} (h : e.proposeDirectory? r d = some p) :
    e.Accounts s p.patterns (p.files.map s.policy.key) := by
  obtain ⟨scan, hscan, hmin, -, -, hconfirms, hpatterns, hfiles, -⟩ := proposeDirectory?_spec h
  have htame := hw.isTame_candidate hd
  rw [hpatterns, hfiles]
  exact accounts_of_confirms hw (g := .tree d) htame rfl hscan (List.Sublist.refl _) hmin []
    (by simp) hconfirms

/-- The proposal of a directory that is nearly full accounts for its selected files. -/
lemma accounts_proposeNearFull (hw : e.WorksOn s) {threshold : Nat} {r : Run} {d : Text}
    (hd : d ∈ e.candidates) {p : Proposal} (h : e.proposeNearFull? threshold r d = some p) :
    e.Accounts s p.patterns (p.files.map s.policy.key) := by
  obtain ⟨scan, missing, hscan, hmissing, hmin, hconfirms, hpatterns, hfiles, -⟩ :=
    proposeNearFull?_spec h
  have htame := hw.isTame_candidate hd
  have hmem : ∀ m ∈ missing, m ∈ scan.files ∧ m ∉ e.selection := by
    intro m hm
    obtain ⟨hfile, hnot⟩ := Coverage.mem_of_nearFull? hmissing m hm
    rw [hw.coverage_eq] at hnot
    refine ⟨hfile, fun hsel => ?_⟩
    have hkey : s.policy.key m ∈ e.selection.map s.policy.key := List.mem_map_of_mem hsel
    simp [Coverage.isSelected, Coverage.ofSelection, hkey] at hnot
  have hexclusions : (missing.map Pattern.escapeLiteral).map (.of '!' :: ·) =
      missing.map exclusion := by
    rw [List.map_map]
    rfl
  rw [hpatterns, hfiles, hexclusions]
  exact accounts_of_confirms hw (g := .tree d) htame rfl hscan List.filter_sublist hmin missing
    hmem hconfirms

/-- The proposal of an extension in a directory accounts for its files. -/
lemma accounts_proposeExtension (hw : e.WorksOn s) {r r' : Run} {place : Text × Text}
    (hplace : place ∈ e.extensionPlaces r') {p : Proposal}
    (h : e.proposeExtension? r place = some p) :
    e.Accounts s p.patterns (p.files.map s.policy.key) := by
  obtain ⟨f, hf, hparent, hne, hext⟩ := mem_extensionPlaces hplace
  obtain ⟨scan, deep, hscan, hplain, hmin, hconfirms, hfiles, hpatterns, -⟩ :=
    proposeExtension?_spec h
  have hford := (hw.selected f hf).toIsTame
  have htame : IsTame place.1 := hparent ▸ hford.parent hne
  have hproper : IsExtension place.2 :=
    hext ▸ isExtension_of_isPlainExtension hford (hext ▸ hplain)
  have hsub : p.files.Sublist scan.files := by
    rw [hfiles]
    split
    · exact List.filter_sublist
    · cases hgroup : lookup? place.2 scan.direct with
      | none => exact List.nil_sublist _
      | some group => exact (hw.files_spec (.inr htame) hscan).2 hgroup
  -- whether the pattern reaches into subdirectories decides which of two globs it is
  obtain ⟨g, hg, hgen, hbase, htext⟩ : ∃ g : Glob, g.IsProper ∧ g.isFile = false ∧
      g.base = place.1 ∧ g.text = extensionPattern deep place.1 place.2 := by
    cases deep with
    | true =>
      refine ⟨.deep place.1 place.2, ⟨htame, hproper⟩, rfl, rfl, ?_⟩
      rw [extensionPattern, if_pos rfl, List.append_assoc]
      rfl
    | false =>
      refine ⟨.direct place.1 place.2, ⟨htame, hproper⟩, rfl, rfl, ?_⟩
      rw [extensionPattern, if_neg Bool.false_ne_true, List.append_assoc]
      rfl
  rw [← hbase] at hscan
  rw [← htext] at hconfirms hpatterns
  rw [hpatterns]
  exact accounts_of_confirms hw hg hgen hscan hsub hmin [] (by simp) hconfirms

/-- The proposal of an extension in the project accounts for its files. -/
lemma accounts_proposeGlobal (hw : e.WorksOn s) {r : Run} {extension : Text}
    (hplace : extension ∈ e.globalExtensions) {p : Proposal}
    (h : e.proposeGlobal? r extension = some p) :
    e.Accounts s p.patterns (p.files.map s.policy.key) := by
  obtain ⟨scan, f, hscan, hf, rfl, hplain⟩ := mem_globalExtensions hplace
  obtain ⟨scan', hscan', hmin, hconfirms, hpatterns, hfiles, -⟩ := proposeGlobal?_spec h
  obtain rfl : scan = scan' := Option.some.inj (hscan.symm.trans hscan')
  have hspec := hw.files_spec (.inl rfl) hscan
  have hproper := isExtension_of_isPlainExtension (hspec.1 f hf).toIsTame hplain
  rw [hpatterns, hfiles]
  exact accounts_of_confirms hw (g := .everywhere (extension f)) hproper rfl
    hscan List.filter_sublist hmin [] (by simp) hconfirms

/-- **Every proposal accounts for its files.** -/
theorem Proposes.accounts (hw : e.WorksOn s) {threshold : Nat} {r : Run} {p : Proposal}
    (h : e.Proposes threshold r p) : e.Accounts s p.patterns (p.files.map s.policy.key) := by
  cases h with
  | directory hd h => exact accounts_proposeDirectory hw hd h
  | nearFull hd h => exact accounts_proposeNearFull hw hd h
  | extension hplace h => exact accounts_proposeExtension hw hplace h
  | everywhere hplace h => exact accounts_proposeGlobal hw hplace h

/-! ### Runs -/

/-- **A step keeps the account of a run**, if the proposal has one. -/
lemma accounts_accept (hw : e.WorksOn s) {r : Run} {p : Proposal}
    (h : e.Accounts s r.patterns r.covered)
    (hp : e.Accounts s p.patterns (p.files.map s.policy.key)) :
    e.Accounts s (r.accept e.policy p).patterns (r.accept e.policy p).covered := by
  rw [policy, hw.policy_eq]
  exact h.append hp

/-- Rules in a row keep the account of a run. -/
lemma accounts_applyRules (hw : e.WorksOn s) (threshold : Nat) (rules : List Rule) {r : Run}
    (h : e.Accounts s r.patterns r.covered) :
    e.Accounts s (e.applyRules threshold rules r).patterns
      (e.applyRules threshold rules r).covered :=
  applyRules_induction (motive := fun r => e.Accounts s r.patterns r.covered)
    (fun _ _ hp h => accounts_accept hw h (hp.accounts hw)) rules h

/-- The literal patterns of selected paths account for the files among them. -/
lemma accounts_files (hw : e.WorksOn s) {files : List Text} (h : ∀ f ∈ files, f ∈ e.selection) :
    e.Accounts s (files.map Pattern.escapeLiteral) (files.map s.policy.key) := by
  induction files with
  | nil => exact .nil
  | cons f files ih =>
    have hsel := h f List.mem_cons_self
    have hone : e.Accounts s [Pattern.escapeLiteral f] [s.policy.key f] := by
      by_cases hfile : s.fs.HasFile s.root f
      · exact .file hw ⟨hsel, hfile⟩
      · exact .missing hw ⟨hw.selected f hsel, hsel, hfile⟩
    exact hone.append (ih fun g hg => h g (List.mem_cons_of_mem _ hg))

/-- **The run of a plan accounts for the selection.** -/
theorem accounts_run (hw : e.WorksOn s) (plan : RulePlan) :
    e.Accounts s (e.run plan).patterns (e.selection.map s.policy.key) := by
  have hrules := accounts_applyRules hw (e.thresholdOf plan.level) plan.rules
    (r := .start) Accounts.nil
  have hrest : ∀ f ∈ (e.applyRules (e.thresholdOf plan.level) plan.rules .start).uncovered
      e.policy e.selection, f ∈ e.selection := fun f hf => (List.mem_filter.1 hf).1
  have hall := hrules.append (accounts_files hw hrest)
  refine ⟨hall.admitted, fun f hf _ => hall.covered f hf ?_⟩
  rw [List.mem_append]
  by_cases hcov : s.policy.key f ∈
      (e.applyRules (e.thresholdOf plan.level) plan.rules .start).covered
  · exact .inl hcov
  · refine .inr (List.mem_map_of_mem (List.mem_filter.2 ⟨hf.1, ?_⟩))
    rw [policy, hw.policy_eq]
    simp [Run.covers, hcov]

end Engine

end GlobPreset
