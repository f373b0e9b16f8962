import GlobPreset.Proofs.Emit.Eliminate
import GlobPreset.Proofs.Text.Ranked

/-!
# Emitting forgets the order of its input

Every stage of emitting is done pattern by pattern once something has been computed from all of
them: the kept directories, the groups to be merged. What is computed does not depend on the order
of the patterns, so each stage takes a rearranged list to a rearranged list, and the last one sorts.

## Main definitions

* `Eliminate.IsApart` — the directory patterns have different directories.

## Main results

* `dedupe_perm_of_mem_iff` — removing duplicates forgets repetitions.
* `eliminateRedundant_perm`, `Emit.merge_perm` — the stages keep rearrangements.
* `emit_patterns_eq_of_mem_iff` — **emitting depends on the set of its patterns alone**.

## Design

Directory patterns are considered by directory, and of two with one directory the first is kept. So
the order counts if a directory is spelled in two ways, see `not_emit_patterns_eq`.
-/

set_option autoImplicit false

namespace GlobPreset

open Text

/-- **Removing duplicates forgets repetitions**: lists with the same members are rearrangements of
each other without their duplicates. -/
lemma dedupe_perm_of_mem_iff {α : Type} [DecidableEq α] {l m : List α} (h : ∀ a, a ∈ l ↔ a ∈ m) :
    (dedupe l).Perm (dedupe m) :=
  (List.perm_ext_iff_of_nodup (nodup_dedupe l) (nodup_dedupe m)).2 fun a => by
    rw [mem_dedupe, mem_dedupe, h]

/-! ### Elimination -/

namespace Eliminate

/-- Different directory patterns have different directories. -/
def IsApart (patterns : List Text) : Prop :=
  ∀ p ∈ patterns, ∀ q ∈ patterns, ∀ d, Pattern.recursiveDirectory? p = some d →
    Pattern.recursiveDirectory? q = some d → p = q

instance (patterns : List Text) : Decidable (IsApart patterns) :=
  decidable_of_iff
    (∀ p ∈ patterns, ∀ q ∈ patterns, (Pattern.recursiveDirectory? p).isSome = true →
      Pattern.recursiveDirectory? p = Pattern.recursiveDirectory? q → p = q)
    ⟨fun h p hp q hq d hpd hqd => h p hp q hq (by rw [hpd]; rfl) (hpd.trans hqd.symm),
      fun h p hp q hq hsome heq => by
        obtain ⟨d, hd⟩ := Option.isSome_iff_exists.1 hsome
        exact h p hp q hq d hd (heq ▸ hd)⟩

/-- Fewer patterns are apart as well. -/
lemma IsApart.subset {patterns fewer : List Text} (h : IsApart patterns)
    (hsub : ∀ p ∈ fewer, p ∈ patterns) : IsApart fewer := fun p hp q hq =>
  h p (hsub p hp) q (hsub q hq)

/-- Directory patterns with different directories are considered in one order only. -/
lemma directoryGlobs_eq_of_perm {includes includes' : List Text} (h : includes.Perm includes')
    (hapart : IsApart includes) : directoryGlobs includes = directoryGlobs includes' := by
  have hlinear := Path.isLinear_shallowerFirst
  refine sortBy_eq_of_perm (fun a b => hlinear.total a.1 b.1)
    (fun a b c => hlinear.trans a.1 b.1 c.1) (h.filterMap _) ?_
  rintro ⟨d, p⟩ hp ⟨d', q⟩ hq hab hba
  obtain rfl : d = d' := hlinear.antisymm d d' hab hba
  obtain ⟨hp, hpd⟩ := mem_directoryGlobs.1 (mem_sortBy.2 hp)
  obtain ⟨hq, hqd⟩ := mem_directoryGlobs.1 (mem_sortBy.2 hq)
  rw [hapart p hp q hq d hpd hqd]

end Eliminate

/-- **Elimination keeps rearrangements**, for whether a pattern is left out depends on the kept
directories alone. -/
lemma eliminateRedundant_perm {ignore : IgnoreRules} {policy : CasePolicy}
    {includes includes' : List Text} (h : includes.Perm includes')
    (hapart : Eliminate.IsApart includes) :
    (eliminateRedundant ignore policy includes).Perm
      (eliminateRedundant ignore policy includes') := by
  simp only [eliminateRedundant, Eliminate.keptDirectories,
    ← Eliminate.directoryGlobs_eq_of_perm h hapart]
  exact h.filter _

/-! ### Merging -/

namespace Merge

variable {patterns patterns' : List Text}

/-- Applying the same batches keeps rearrangements. -/
lemma applyBatches_perm {batches batches' : List Batch} (hpatterns : patterns.Perm patterns')
    (hbatches : batches.Perm batches') :
    (applyBatches patterns batches).patterns.Perm (applyBatches patterns' batches').patterns := by
  have hreplaced : ∀ p, (batches.flatMap fun b => b.replaced).contains p =
      (batches'.flatMap fun b => b.replaced).contains p := by
    intro p
    rw [Bool.eq_iff_iff, List.contains_iff_mem, List.contains_iff_mem]
    exact (hbatches.flatMap_right _).mem_iff
  refine List.Perm.append ?_ (hbatches.map _)
  simp only [hreplaced]
  exact hpatterns.filter _

/-- Merging keeps rearrangements, if the batch of a group depends on its members alone. -/
lemma applyBatches_groupPairs_perm (read? : Text → Option (Text × Text))
    {batch? : Text × List Text → Option Batch}
    (hbatch : ∀ k {members members' : List Text}, members.Perm members' →
      batch? (k, members) = batch? (k, members')) (h : patterns.Perm patterns') :
    (applyBatches patterns
        ((groupPairs (patterns.filterMap read?)).filterMap batch?)).patterns.Perm
      (applyBatches patterns'
        ((groupPairs (patterns'.filterMap read?)).filterMap batch?)).patterns :=
  applyBatches_perm h (filterMap_groupPairs_perm hbatch (h.filterMap _))

/-- Merging directories does not depend on the order of the patterns. -/
lemma directories_perm (h : patterns.Perm patterns') :
    (directories patterns).patterns.Perm (directories patterns').patterns := by
  refine applyBatches_groupPairs_perm _ (fun parent children children' hperm => ?_) h
  simp only [siblingBatch?, hperm.length_eq, sort_eq_of_perm hperm]

/-- Merging extensions does not depend on the order of the patterns. -/
lemma extensions_perm (h : patterns.Perm patterns') :
    (extensions patterns).patterns.Perm (extensions patterns').patterns := by
  refine applyBatches_groupPairs_perm _ (fun stem members members' hperm => ?_) h
  have hmembers : (dedupe members).Perm (dedupe members') :=
    dedupe_perm_of_mem_iff fun _ => hperm.mem_iff
  simp only [extensionBatch?, sort_eq_of_perm hmembers]

end Merge

/-- **Merging keeps rearrangements.** -/
lemma Emit.merge_perm {patterns patterns' : List Text} (h : patterns.Perm patterns') :
    (merge patterns).patterns.Perm (merge patterns').patterns :=
  Merge.extensions_perm (Merge.directories_perm h)

/-! ### Emitting -/

/-- **Emitting depends on the set of its patterns alone**, neither on their order nor on
repetitions, if no directory has two directory patterns among those that are no exclusions.

**Proof sketch.** Without duplicates the lists are rearrangements of each other, and so is whatever
the stages make of them. The order of the result is linear, so in the end they are the same. -/
theorem emit_patterns_eq_of_mem_iff (braces : Bool) (ignore : IgnoreRules) (policy : CasePolicy)
    {raw raw' : List Text} (h : ∀ p, p ∈ raw ↔ p ∈ raw')
    (hapart : Eliminate.IsApart (raw.filter fun p => !isExcluded p)) :
    (emit braces ignore policy raw).patterns = (emit braces ignore policy raw').patterns := by
  have hunique : (dedupe raw).Perm (dedupe raw') := dedupe_perm_of_mem_iff h
  have hincludes : (eliminateRedundant ignore policy
      ((dedupe raw).filter fun p => !isExcluded p)).Perm
        (eliminateRedundant ignore policy ((dedupe raw').filter fun p => !isExcluded p)) := by
    apply eliminateRedundant_perm (hunique.filter _)
    exact hapart.subset fun p hp => by simpa using hp
  apply Emit.isLinear_precedes.sortBy_eq
  refine List.Perm.append ?_ (hunique.filter isExcluded)
  cases braces with
  | true => exact Emit.merge_perm hincludes
  | false => exact hincludes

/-- Patterns of which two can be merged, in some order. -/
def shuffledPatterns : List Text :=
  ["a/b/**".toText, "!a/c/x".toText, "a/d/**".toText, "a/b/e".toText, "f.o".toText]

/-- The same patterns in another order, one of them twice. -/
theorem emit_patterns_eq_shuffled :
    (emit true ⟨[], ⟨[]⟩⟩ .insensitive shuffledPatterns).patterns =
        ["a/{b,d}/**".toText, "f.o".toText, "!a/c/x".toText] ∧
      (emit true ⟨[], ⟨[]⟩⟩ .insensitive ("a/d/**".toText :: shuffledPatterns.reverse)).patterns =
        ["a/{b,d}/**".toText, "f.o".toText, "!a/c/x".toText] := by
  have hfirst : (emit true ⟨[], ⟨[]⟩⟩ .insensitive shuffledPatterns).patterns =
      ["a/{b,d}/**".toText, "f.o".toText, "!a/c/x".toText] := by decide +kernel
  refine ⟨hfirst, ?_⟩
  rw [← hfirst]
  have htwice : "a/d/**".toText ∈ shuffledPatterns := by decide +kernel
  have hmem : ∀ p, p ∈ shuffledPatterns ↔ p ∈ "a/d/**".toText :: shuffledPatterns.reverse := by
    intro p
    rw [List.mem_cons, List.mem_reverse, or_iff_right_of_imp]
    rintro rfl
    exact htwice
  have hapart : Eliminate.IsApart (shuffledPatterns.filter fun p => !isExcluded p) := by
    decide +kernel
  exact (emit_patterns_eq_of_mem_iff true _ _ hmem hapart).symm

/-- **A directory with two patterns** keeps the first of them. -/
theorem not_emit_patterns_eq :
    ¬ ∀ (ignore : IgnoreRules) (policy : CasePolicy) (raw raw' : List Text),
      (∀ p, p ∈ raw ↔ p ∈ raw') →
      (emit false ignore policy raw).patterns = (emit false ignore policy raw').patterns := by
  intro hall
  have h := hall ⟨[], ⟨[]⟩⟩ .sensitive ["a/**".toText, "\\a/**".toText]
    ["\\a/**".toText, "a/**".toText] fun p => by
      simp only [List.mem_cons]
      tauto
  exact absurd h (by decide +kernel)

end GlobPreset
