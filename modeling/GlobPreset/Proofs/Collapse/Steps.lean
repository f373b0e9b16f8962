import GlobPreset.Collapse.Plan
import GlobPreset.Proofs.Text.Cutting
import GlobPreset.Proofs.Text.Order

/-!
# The steps of a run

A run goes on by proposals. What a proposal of each rule consists of is said here once, and so is
the induction over a run: whatever every proposal keeps, rules in a row keep.

## Main definitions

* `Engine.Proposes` — some rule makes the proposal at one of its places.

## Main results

* `Engine.proposeDirectory?_spec`, `Engine.proposeNearFull?_spec`, `Engine.proposeExtension?_spec`,
  `Engine.proposeGlobal?_spec` — what a proposal consists of.
* `Engine.mem_extensionPlaces`, `Engine.mem_globalExtensions` — where the last two rules apply.
* `Engine.applyRules_induction` — **what every proposal keeps, rules in a row keep**.
-/

set_option autoImplicit false

namespace GlobPreset

open Text

/-- An extension is a part of its path. -/
lemma Path.mem_of_mem_extension {path : Text} {c : CodePoint} (h : c ∈ extension path) :
    c ∈ path := by
  have hbase : ∀ d ∈ baseName path, d ∈ path := by
    intro d hd
    unfold baseName at hd
    split at hd
    · rename_i before behind hsplit
      rw [(splitLast?_eq_some.1 hsplit).1]
      exact List.mem_append_right _ (List.mem_cons_of_mem _ hd)
    · exact hd
  unfold extension at h
  split at h
  · rename_i first before behind hsplit
    refine hbase c ?_
    rw [(splitLast?_eq_some.1 hsplit).1]
    exact List.mem_append_right _ (List.mem_cons_of_mem _ h)
  · cases h

/-- The missing files of a scan that is nearly full are not selected. -/
lemma Coverage.mem_of_nearFull? {c : Coverage} {scan : DirectoryScan} {threshold : Nat}
    {missing : List Text} (h : c.nearFull? scan threshold = some missing) :
    ∀ m ∈ missing, m ∈ scan.files ∧ c.isSelected m = false := by
  unfold nearFull? at h
  dsimp only at h
  split at h
  · cases h
    intro m hm
    obtain ⟨hfile, hnot⟩ := List.mem_filter.1 hm
    exact ⟨hfile, by simpa using hnot⟩
  · cases h

namespace Engine

variable {e : Engine}

/-! ### Proposals -/

/-- The pattern of the files of one extension in a directory, or below it. -/
def extensionPattern (deep : Bool) (directory extension : Text) : Text :=
  Pattern.escapeLiteral directory ++
    (if deep then [.of '/', .of '*', .of '*', .of '/'] else [.of '/']) ++
    .of '*' :: .of '.' :: extension

/-- The proposal of a directory of which all files are selected. -/
lemma proposeDirectory?_spec {r : Run} {d : Text} {p : Proposal}
    (h : e.proposeDirectory? r d = some p) :
    ∃ scan, e.scan? d = some scan ∧ e.context.minFiles ≤ scan.files.length ∧
      scan.fullySelected = true ∧ r.uncovered e.policy scan.files ≠ [] ∧
      e.coverage.confirms (directoryPattern d) scan scan.files [] = true ∧
      p.patterns = [directoryPattern d] ∧ p.files = scan.files ∧
      p.application = ⟨.fullDirectory, d, (r.uncovered e.policy scan.files).length, 1⟩ := by
  obtain ⟨scan, hscan, h⟩ := Option.bind_eq_some_iff.1 h
  dsimp only at h
  split at h
  · rename_i hcheck
    cases h
    exact ⟨scan, hscan, hcheck.1, hcheck.2.1, hcheck.2.2.1, hcheck.2.2.2, rfl, rfl, rfl⟩
  · cases h

/-- The proposal of a directory of which few files are not selected. -/
lemma proposeNearFull?_spec {threshold : Nat} {r : Run} {d : Text} {p : Proposal}
    (h : e.proposeNearFull? threshold r d = some p) :
    ∃ scan missing, e.scan? d = some scan ∧ e.coverage.nearFull? scan threshold = some missing ∧
      e.context.minFiles ≤ (e.coverage.selectedFiles scan).length ∧
      e.coverage.confirms (directoryPattern d) scan (e.coverage.selectedFiles scan)
        (missing.map Pattern.escapeLiteral) = true ∧
      p.patterns = directoryPattern d :: (missing.map Pattern.escapeLiteral).map (.of '!' :: ·) ∧
      p.files = e.coverage.selectedFiles scan ∧
      p.application = ⟨.nearFullExclusion,
        d ++ " (exclude ".toText ++ ofNat missing.length ++ [.of ')'],
        (r.uncovered e.policy (e.coverage.selectedFiles scan)).length, 1 + missing.length⟩ ∧
      1 + missing.length ≤ (r.uncovered e.policy (e.coverage.selectedFiles scan)).length := by
  unfold proposeNearFull? at h
  split at h
  · cases h
  obtain ⟨scan, hscan, h⟩ := Option.bind_eq_some_iff.1 h
  obtain ⟨missing, hmissing, h⟩ := Option.bind_eq_some_iff.1 h
  dsimp only at h
  split at h
  · rename_i hcheck
    cases h
    exact ⟨scan, missing, hscan, hmissing, hcheck.1, hcheck.2.2.2, rfl, rfl, rfl, hcheck.2.2.1⟩
  · cases h

/-- The proposal of the files of one extension in a directory, or below it. -/
lemma proposeExtension?_spec {r : Run} {place : Text × Text} {p : Proposal}
    (h : e.proposeExtension? r place = some p) :
    ∃ scan deep, e.scan? place.1 = some scan ∧ isPlainExtension place.2 = true ∧
      e.context.minFiles ≤ p.files.length ∧
      e.coverage.confirms (extensionPattern deep place.1 place.2) scan p.files [] = true ∧
      p.files = (if deep then Coverage.filesOfExtension scan place.2
        else (lookup? place.2 scan.direct).getD []) ∧
      p.patterns = [extensionPattern deep place.1 place.2] ∧
      p.application = ⟨.directoryExtension, place.1 ++ .of ' ' :: .of '*' :: .of '.' :: place.2,
        (r.uncovered e.policy p.files).length, 1⟩ ∧
      r.uncovered e.policy p.files ≠ [] ∧ Coverage.coversExtension scan place.2 = true ∧
      (deep = true → e.coverage.coversExtensionBelow scan place.2 = true) := by
  obtain ⟨directory, extension⟩ := place
  obtain ⟨scan, hscan, h⟩ := Option.bind_eq_some_iff.1 h
  dsimp only at h
  cases hdeep : e.context.recursiveExtensions && scan.hasSubdirectories &&
    e.coverage.coversExtensionBelow scan extension with
  | true =>
    simp only [hdeep, if_true] at h
    split at h
    · rename_i hcheck
      cases h
      exact ⟨scan, true, hscan, hcheck.1, hcheck.2.2.1, hcheck.2.2.2.2, rfl, rfl, rfl,
        hcheck.2.2.2.1, hcheck.2.1, fun _ => (Bool.and_eq_true_iff.1 hdeep).2⟩
    · cases h
  | false =>
    simp only [hdeep, Bool.false_eq_true, if_false] at h
    split at h
    · rename_i hcheck
      cases h
      exact ⟨scan, false, hscan, hcheck.1, hcheck.2.2.1, hcheck.2.2.2.2, rfl, rfl, rfl,
        hcheck.2.2.2.1, hcheck.2.1, by simp⟩
    · cases h

/-- The proposal of the files of one extension in the project. -/
lemma proposeGlobal?_spec {r : Run} {extension : Text} {p : Proposal}
    (h : e.proposeGlobal? r extension = some p) :
    ∃ scan, e.scan? [] = some scan ∧
      e.context.minFiles ≤ (Coverage.filesOfExtension scan extension).length ∧
      e.coverage.confirms ([.of '*', .of '*', .of '/', .of '*', .of '.'] ++ extension) scan
        (Coverage.filesOfExtension scan extension) [] = true ∧
      p.patterns = [[.of '*', .of '*', .of '/', .of '*', .of '.'] ++ extension] ∧
      p.files = Coverage.filesOfExtension scan extension ∧
      p.application = ⟨.globalExtension, [.of '*', .of '*', .of '/', .of '*', .of '.'] ++ extension,
        p.files.length, 1⟩ ∧
      p.files.all e.coverage.isSelected = true ∧
      p.files.all (fun f => !r.covers e.policy f) = true := by
  obtain ⟨scan, hscan, h⟩ := Option.bind_eq_some_iff.1 h
  dsimp only at h
  split at h
  · rename_i hcheck
    cases h
    exact ⟨scan, hscan, hcheck.1, hcheck.2.2.2, rfl, rfl, rfl, hcheck.2.1, hcheck.2.2.1⟩
  · cases h

/-! ### Places -/

/-- A place of an extension holds a file of the selection. -/
lemma mem_extensionPlaces {r : Run} {place : Text × Text} (h : place ∈ e.extensionPlaces r) :
    ∃ f ∈ e.selection, Path.parent f = place.1 ∧ Path.parent f ≠ [] ∧
      Path.extension f = place.2 := by
  obtain ⟨group, hgroup, hplace⟩ := List.mem_flatMap.1 h
  obtain ⟨ext, hext, rfl⟩ := List.mem_map.1 hplace
  rw [mem_sortBy, extensionsByDirectory] at hgroup
  rw [mem_sort, mem_dedupe, (mem_groupPairs.1 hgroup).1, mem_valuesOf] at hext
  obtain ⟨f, hf, hpair⟩ := List.mem_filterMap.1 hext
  split at hpair
  · cases hpair
  · rename_i hne
    simp only [Bool.or_eq_true, List.isEmpty_iff, not_or] at hne
    obtain ⟨h₁, h₂⟩ := Prod.mk.inj (Option.some.inj hpair)
    exact ⟨f, (List.mem_filter.1 hf).1, h₁, hne.1, h₂⟩

/-- An extension of the project is that of one of its files. -/
lemma mem_globalExtensions {extension : Text} (h : extension ∈ e.globalExtensions) :
    ∃ scan f, e.scan? [] = some scan ∧ f ∈ scan.files ∧ extension = Path.extension f ∧
      isPlainExtension extension = true := by
  unfold globalExtensions at h
  split at h
  · cases h
  · rename_i scan hscan
    rw [mem_sort, mem_dedupe] at h
    obtain ⟨hmem, hplain⟩ := List.mem_filter.1 h
    obtain ⟨f, hf, rfl⟩ := List.mem_map.1 hmem
    exact ⟨scan, f, hscan, hf, rfl, hplain⟩

/-! ### Runs -/

/-- Some rule makes the proposal at one of its places. -/
inductive Proposes (e : Engine) (threshold : Nat) (r : Run) (p : Proposal) : Prop
  | directory {d : Text} (hd : d ∈ e.candidates) (h : e.proposeDirectory? r d = some p)
  | nearFull {d : Text} (hd : d ∈ e.candidates) (h : e.proposeNearFull? threshold r d = some p)
  | extension {r' : Run} {place : Text × Text} (hplace : place ∈ e.extensionPlaces r')
      (h : e.proposeExtension? r place = some p)
  | everywhere {extension : Text} (hplace : extension ∈ e.globalExtensions)
      (h : e.proposeGlobal? r extension = some p)

/-- What every step keeps is kept by proposals made one after another. -/
lemma proposeAt_induction {motive : Run → Prop} {α : Type}
    {propose : Run → α → Option Proposal} :
    ∀ {places : List α} {r : Run},
      (∀ r, ∀ place ∈ places, ∀ p, propose r place = some p → motive r →
        motive (r.accept e.policy p)) →
      motive r → motive (e.proposeAt propose r places) := by
  intro places
  induction places with
  | nil => exact fun _ h => h
  | cons place places ih =>
    intro r hstep h
    have hrest := fun r q hq => hstep r q (List.mem_cons_of_mem place hq)
    unfold proposeAt
    rw [List.foldl_cons]
    cases hp : propose r place with
    | none => exact ih hrest h
    | some p => exact ih hrest (hstep r place List.mem_cons_self p hp h)

variable {motive : Run → Prop} {threshold : Nat}

/-- What every proposal keeps, one rule keeps. -/
lemma applyRule_induction
    (hstep : ∀ r p, e.Proposes threshold r p → motive r → motive (r.accept e.policy p))
    (rule : Rule) {r : Run} (h : motive r) : motive (e.applyRule threshold r rule) := by
  cases rule with
  | fullDirectory =>
    exact proposeAt_induction (fun r _ hd p hp => hstep r p (.directory hd hp)) h
  | nearFullExclusion =>
    rw [applyRule]
    split
    · exact h
    · exact proposeAt_induction (fun r _ hd p hp => hstep r p (.nearFull hd hp)) h
  | directoryExtension =>
    exact proposeAt_induction (fun r _ hplace p hp => hstep r p (.extension hplace hp)) h
  | globalExtension =>
    exact proposeAt_induction (fun r _ hplace p hp => hstep r p (.everywhere hplace hp)) h

/-- **What every proposal keeps, rules in a row keep.** -/
theorem applyRules_induction
    (hstep : ∀ r p, e.Proposes threshold r p → motive r → motive (r.accept e.policy p)) :
    ∀ (rules : List Rule) {r : Run}, motive r → motive (e.applyRules threshold rules r) := by
  intro rules
  induction rules with
  | nil => exact fun h => h
  | cons rule rules ih => exact fun h => ih (applyRule_induction hstep rule h)

end Engine

end GlobPreset
