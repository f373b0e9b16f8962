import GlobPreset.Proofs.Collapse.Rules
import GlobPreset.Proofs.Emit.Merge

/-!
# Records are one line each

What is recorded of a step names a directory, an extension or a pattern. In a project of ordinary
files no line ends in any of them, so every record is one line of a header.

## Main definitions

* `Application.IsOneLine`, `Run.IsOneLine` — no line ends in the details of a record, or of those of
  a run.

## Main results

* `Engine.isOneLine_run` — **the records of every run are one line each**.
* `Emit.isOneLine_braces` — so are those of merging.
-/

set_option autoImplicit false

namespace GlobPreset

open GlobPreset.Path Text

namespace Text

/-- A number is written with digits. -/
lemma range_of_mem_ofNat {n : Nat} {c : CodePoint} (hc : c ∈ ofNat n) :
    48 ≤ c.toNat ∧ c.toNat ≤ 57 := by
  obtain ⟨d, hd, rfl⟩ := List.mem_map.1 hc
  have hdigit : d.isDigit = true := Nat.isDigit_of_mem_toDigits (by decide) (by decide) hd
  simp only [Char.isDigit, Bool.and_eq_true, decide_eq_true_eq] at hdigit
  exact ⟨hdigit.1, hdigit.2⟩

/-- No line ends in a number. -/
lemma isLineBoundary_ofNat (n : Nat) : (ofNat n).any isLineBoundary = false := by
  rw [List.any_eq_false]
  intro c hc
  have hrange := range_of_mem_ofNat hc
  unfold isLineBoundary
  simp only [Bool.or_eq_true, Bool.and_eq_true, decide_eq_true_eq, beq_iff_eq]
  omega

/-- No line ends in a part of a text without line ends. -/
lemma isLineBoundary_of_subset {s t : Text} (h : t.any isLineBoundary = false)
    (hsub : ∀ c ∈ s, c ∈ t) : s.any isLineBoundary = false := by
  rw [List.any_eq_false] at h ⊢
  exact fun c hc => h c (hsub c hc)

end Text

/-- No line ends in the details of the record. -/
def Application.IsOneLine (a : Application) : Prop := a.details.any isLineBoundary = false

/-- The records of the run are one line each. -/
def Run.IsOneLine (r : Run) : Prop := ∀ a ∈ r.applied, a.IsOneLine

namespace Engine

variable {e : Engine} {s : Scanner}

/-! ### Proposals -/

/-- What is told about an extension in one place is one line. -/
lemma isOneLine_proposeExtension (hw : e.WorksOn s) {r r' : Run} {place : Text × Text}
    (hplace : place ∈ e.extensionPlaces r') {p : Proposal}
    (h : e.proposeExtension? r place = some p) : p.application.IsOneLine := by
  obtain ⟨f, hf, hparent, hne, hext⟩ := mem_extensionPlaces hplace
  obtain ⟨-, -, -, -, -, -, -, -, happlied, -⟩ := proposeExtension?_spec h
  have htame := (hw.selected f hf).toIsTame
  have hdirectory : place.1.any isLineBoundary = false := by
    rw [← hparent]
    exact (htame.parent hne).noBoundary
  have hextension : place.2.any isLineBoundary = false := by
    rw [← hext]
    exact isLineBoundary_of_subset htame.noBoundary fun c hc => mem_of_mem_extension hc
  simp only [Application.IsOneLine, happlied, List.any_append, List.any_cons, hdirectory,
    hextension]
  decide

/-- What is told about an extension of the whole project is one line. -/
lemma isOneLine_proposeGlobal (hw : e.WorksOn s) {r : Run} {extension : Text}
    (hplace : extension ∈ e.globalExtensions) {p : Proposal}
    (h : e.proposeGlobal? r extension = some p) : p.application.IsOneLine := by
  obtain ⟨scan, f, hscan, hf, rfl, -⟩ := mem_globalExtensions hplace
  obtain ⟨-, -, -, -, -, -, happlied, -⟩ := proposeGlobal?_spec h
  have htame := ((hw.files_spec (.inl rfl) hscan).1 f hf).toIsTame
  have hextension : (Path.extension f).any isLineBoundary = false :=
    isLineBoundary_of_subset htame.noBoundary fun c hc => mem_of_mem_extension hc
  simp only [Application.IsOneLine, happlied, List.any_append, hextension, Bool.or_false]
  decide

/-- **The record of every proposal is one line.** -/
theorem Proposes.isOneLine (hw : e.WorksOn s) {threshold : Nat} {r : Run} {p : Proposal}
    (h : e.Proposes threshold r p) : p.application.IsOneLine := by
  cases h with
  | directory hd h =>
    obtain ⟨scan, -, -, -, -, -, -, -, happlied⟩ := proposeDirectory?_spec h
    rw [Application.IsOneLine, happlied]
    exact (hw.isTame_candidate hd).noBoundary
  | nearFull hd h =>
    obtain ⟨scan, missing, -, -, -, -, -, -, happlied, -⟩ := proposeNearFull?_spec h
    have hcount := isLineBoundary_ofNat missing.length
    have hname := (hw.isTame_candidate hd).noBoundary
    simp only [Application.IsOneLine, happlied, List.any_append, hname, hcount, Bool.false_or,
      Bool.or_false]
    decide
  | extension hplace h => exact isOneLine_proposeExtension hw hplace h
  | everywhere hplace h => exact isOneLine_proposeGlobal hw hplace h

/-! ### Runs -/

/-- **The records of every run are one line each.** -/
theorem isOneLine_run (hw : e.WorksOn s) (plan : RulePlan) : (e.run plan).IsOneLine := by
  refine applyRules_induction (e := e) (motive := Run.IsOneLine)
    (fun r p hp h a ha => ?_) plan.rules (r := .start) fun _ ha => absurd ha List.not_mem_nil
  rcases List.mem_append.1 ha with ha | ha
  · exact h a ha
  · rw [List.mem_singleton.1 ha]
    exact hp.isOneLine hw

end Engine

namespace Emit

open Merge

/-- A record of a merge is one line if the merged pattern is. -/
lemma isOneLine_record {technique : Technique} {merged : Text} {count : Nat} {kind : String}
    (hmerged : merged.any isLineBoundary = false)
    (hkind : kind.toText.any isLineBoundary = false) :
    (record technique merged count kind).IsOneLine := by
  simp only [record, Application.IsOneLine, List.any_append, hmerged, hkind,
    isLineBoundary_ofNat count, Bool.false_or, Bool.or_false]
  decide

/-- The records of batches are one line each, if those of the merged patterns are. -/
lemma isOneLine_applyBatches {patterns : List Text} {batches : List Batch}
    (h : ∀ b ∈ batches, b.merged.any isLineBoundary = false → b.application.IsOneLine)
    (hwritable : ∀ p ∈ (applyBatches patterns batches).patterns, Pattern.IsWritable p) :
    ∀ a ∈ (applyBatches patterns batches).applied, a.IsOneLine := by
  intro a ha
  obtain ⟨b, hb, rfl⟩ := List.mem_map.1 ha
  exact h b hb (hwritable _ (List.mem_append_right _ (List.mem_map_of_mem hb))).stored.noBoundary

/-- What is told about merged directories is one line, if what they are merged to is one. -/
lemma isOneLine_siblingBatch {group : Text × List Text} {b : Batch}
    (h : siblingBatch? group = some b) (hmerged : b.merged.any isLineBoundary = false) :
    b.application.IsOneLine := by
  unfold siblingBatch? at h
  split at h
  · cases h
  · cases h
    exact isOneLine_record hmerged (by decide)

/-- What is told about merged extensions is one line, if what they are merged to is one. -/
lemma isOneLine_extensionBatch {group : Text × List Text} {b : Batch}
    (h : extensionBatch? group = some b) (hmerged : b.merged.any isLineBoundary = false) :
    b.application.IsOneLine := by
  unfold extensionBatch? at h
  dsimp only at h
  split at h
  · cases h
  · cases h
    exact isOneLine_record hmerged (by decide)

/-- **The records of merging are one line each**, whether or not braces are asked for. -/
theorem isOneLine_braces (braces : Bool) {patterns : List Text}
    (h : ∀ p ∈ patterns, ∃ g : Glob, g.IsProper ∧ p = g.text) {out : Outcome}
    (hout : out = if braces then merge patterns else ⟨patterns, []⟩) :
    ∀ a ∈ out.applied, a.IsOneLine := by
  subst hout
  cases braces with
  | false => simp
  | true =>
    have hfirst := (directories_spec h).1
    have hsecond := (extensions_spec hfirst).1
    intro a ha
    rcases List.mem_append.1 ha with ha | ha
    · refine isOneLine_applyBatches (fun b hb => ?_) hfirst a ha
      obtain ⟨group, -, hbatch⟩ := List.mem_filterMap.1 hb
      exact isOneLine_siblingBatch hbatch
    · refine isOneLine_applyBatches (fun b hb => ?_) hsecond a ha
      obtain ⟨group, -, hbatch⟩ := List.mem_filterMap.1 hb
      exact isOneLine_extensionBatch hbatch

end Emit

end GlobPreset
