import Mathlib.Data.List.Nodup
import Mathlib.Data.List.Perm.Subperm
import GlobPreset.Emit.Order
import GlobPreset.Proofs.Emit.Merge

/-!
# Emitting makes no list longer

Elimination and the removal of duplicates only take patterns away, and a merge puts one pattern in
the place of several. That no merge makes a list longer is a matter of counting: a pattern belongs
to one group at most, as it is written from its group and its place in it.

## Main results

* `Merge.length_applyBatches_le` — merging groups makes no list longer.
* `Emit.length_merge_le` — nor do both merges, one behind the other.
* `length_emit_le` — nor does emitting.
* `length_emit_braces_le` — with braces, emitting gives no more patterns than without.

## Design

A pattern with a line feed at its end would be read as belonging to a group that it is not written
from, so the merge of extensions asks for patterns without line feeds. Merging directories keeps
them so.
-/

set_option autoImplicit false

namespace GlobPreset

open Text

/-- Removing duplicates takes elements away. -/
lemma dedupe_sublist {α : Type} [DecidableEq α] (l : List α) : (dedupe l).Sublist l := by
  induction l with
  | nil => exact .slnil
  | cons a rest ih => exact (List.filter_sublist.trans ih).cons_cons a

namespace Merge

variable {patterns : List Text}

/-! ### Groups -/

/-- **Merging groups makes no list longer.** The groups are those of a reading of patterns that can
be undone, and the merge of a group replaces the patterns of all its members.

**Proof sketch.** Every group that is merged has a member, and the pattern of that member is in the
list and is replaced. Patterns of different groups are read differently, so there are at least as
many replaced patterns as merged ones. -/
theorem length_applyBatches_le (write : Text → Text → Text) {read? : Text → Option (Text × Text)}
    {batch? : Text × List Text → Option Batch}
    (hwrite : ∀ p ∈ patterns, ∀ k m, read? p = some (k, m) → p = write k m)
    (hreplaced : ∀ g b, batch? g = some b → ∀ m ∈ g.2, write g.1 m ∈ b.replaced) :
    (applyBatches patterns
      ((groupPairs (patterns.filterMap read?)).filterMap batch?)).patterns.length ≤
      patterns.length := by
  set groups := groupPairs (patterns.filterMap read?) with hgroups
  set merged := groups.filter fun g => (batch? g).isSome with hmerged
  set replaced := (groups.filterMap batch?).flatMap fun b => b.replaced with hall
  have hpick : ∀ g ∈ merged, ∃ m, read? (write g.1 m) = some (g.1, m) ∧
      write g.1 m ∈ patterns.filter replaced.contains := by
    intro g hg
    obtain ⟨hgroup, hsome⟩ := List.mem_filter.1 hg
    obtain ⟨b, hb⟩ := Option.isSome_iff_exists.1 hsome
    obtain ⟨hvalues, hne⟩ := mem_groupPairs.1 hgroup
    obtain ⟨m, hm⟩ := List.exists_mem_of_ne_nil g.2 hne
    have hpair := mem_valuesOf.1 (hvalues ▸ hm)
    obtain ⟨p, hp, hread⟩ := List.mem_filterMap.1 hpair
    obtain rfl := hwrite p hp _ _ hread
    refine ⟨m, hread, List.mem_filter.2 ⟨hp, List.contains_iff_mem.2 ?_⟩⟩
    exact List.mem_flatMap.2 ⟨b, List.mem_filterMap.2 ⟨g, hgroup, hb⟩, hreplaced g b hb m hm⟩
  choose! pick hread hmem using hpick
  -- what a pick is read as gives the group back, so the picks of different groups differ
  have hkeys : (merged.map fun g => write g.1 (pick g)).map (fun p => (read? p).map Prod.fst) =
      (merged.map Prod.fst).map some := by
    rw [List.map_map, List.map_map]
    exact List.map_congr_left fun g hg => by simp [hread g hg]
  have hdistinct : (merged.map fun g => write g.1 (pick g)).Nodup := by
    refine List.Nodup.of_map (fun p => (read? p).map Prod.fst) ?_
    rw [hkeys]
    refine List.Nodup.map (fun _ _ h => Option.some.inj h) ?_
    exact (nodup_keys_groupPairs _).sublist (List.filter_sublist.map _)
  have hcount : merged.length ≤ (patterns.filter replaced.contains).length := by
    have hlength : (merged.map fun g => write g.1 (pick g)).length = merged.length :=
      List.length_map _
    rw [← hlength]
    refine (hdistinct.subperm fun p hp => ?_).length_le
    obtain ⟨g, hg, rfl⟩ := List.mem_map.1 hp
    exact hmem g hg
  have hbatches : ((groups.filterMap batch?).map fun b => b.merged).length = merged.length := by
    rw [List.length_map, List.length_filterMap_eq_countP, List.countP_eq_length_filter]
  have htotal : patterns.length = (patterns.filter replaced.contains).length +
      (patterns.filter fun p => !replaced.contains p).length :=
    List.length_eq_length_filter_add _
  simp only [applyBatches, List.length_append, hbatches]
  rw [← hall]
  omega

/-! ### Both merges -/

/-- Merging siblings makes no list longer. -/
lemma length_directories_le (patterns : List Text) :
    (directories patterns).patterns.length ≤ patterns.length := by
  refine length_applyBatches_le
    (fun parent child => parent ++ .of '/' :: (child ++ Pattern.recursiveTail))
    (fun p _ parent child h => (sibling?_spec h).2.1) fun g b hb child hchild => ?_
  unfold siblingBatch? at hb
  split at hb
  · cases hb
  · cases hb
    exact List.mem_map.2 ⟨child, mem_sort.2 hchild, rfl⟩

/-- Merging siblings keeps patterns free of line feeds. -/
lemma not_mem_directories (hpatterns : ∀ p ∈ patterns, .of '\n' ∉ p) :
    ∀ p ∈ (directories patterns).patterns, .of '\n' ∉ p := by
  intro p hp
  rcases List.mem_append.1 hp with hp | hp
  · exact hpatterns p (List.mem_of_mem_filter hp)
  · obtain ⟨b, hb, rfl⟩ := List.mem_map.1 hp
    obtain ⟨⟨parent, children⟩, hgroup, hbatch⟩ := List.mem_filterMap.1 hb
    have hchild : ∀ child ∈ children, .of '\n' ∉ parent ∧ .of '\n' ∉ child := by
      intro child hchild
      rw [(mem_groupPairs.1 hgroup).1, mem_valuesOf] at hchild
      obtain ⟨p, hp, hread⟩ := List.mem_filterMap.1 hchild
      have hfree := hpatterns p hp
      rw [(sibling?_spec hread).2.1] at hfree
      simp only [List.mem_append, List.mem_cons, not_or] at hfree
      exact ⟨hfree.1, hfree.2.2.1⟩
    obtain ⟨first, hfirst⟩ := List.exists_mem_of_ne_nil _ (mem_groupPairs.1 hgroup).2
    unfold siblingBatch? at hbatch
    split at hbatch
    · cases hbatch
    · cases hbatch
      simp only [List.mem_append, List.mem_cons, not_or]
      refine ⟨(hchild first hfirst).1, by decide, fun hc => ?_, by decide⟩
      rcases IsGroup.mem_braced hc with hc | ⟨child, hmember, hc⟩
      · exact absurd hc (by decide)
      · exact (hchild child (mem_sort.1 hmember)).2 hc

/-- Merging extensions makes no list longer. -/
lemma length_extensions_le (hpatterns : ∀ p ∈ patterns, .of '\n' ∉ p) :
    (extensions patterns).patterns.length ≤ patterns.length := by
  refine length_applyBatches_le (fun stem extension => stem ++ .of '.' :: extension)
    (fun p hp stem extension h => (suffixed?_spec (hpatterns p hp) h).2.1) fun g b hb e he => ?_
  simp only [extensionBatch?] at hb
  split at hb
  · cases hb
  · cases hb
    exact List.mem_map.2 ⟨e, mem_sort.2 (mem_dedupe.2 he), rfl⟩

end Merge

/-- **Merging makes no list longer.** -/
theorem Emit.length_merge_le {patterns : List Text} (hpatterns : ∀ p ∈ patterns, .of '\n' ∉ p) :
    (merge patterns).patterns.length ≤ patterns.length :=
  (Merge.length_extensions_le (Merge.not_mem_directories hpatterns)).trans
    (Merge.length_directories_le patterns)

/-! ### Emitting -/

variable {ignore : IgnoreRules} {policy : CasePolicy} {patterns : List Text}

/-- The number of patterns that are emitted. -/
lemma length_emit (braces : Bool) :
    (emit braces ignore policy patterns).patterns.length =
      (if braces then
        (Emit.merge (eliminateRedundant ignore policy
          ((dedupe patterns).filter fun p => !isExcluded p))).patterns
      else eliminateRedundant ignore policy
        ((dedupe patterns).filter fun p => !isExcluded p)).length +
        ((dedupe patterns).filter isExcluded).length := by
  rw [emit, Emit.order, (sortBy_perm _ _).length_eq, List.length_append]
  cases braces <;> rfl

/-- **Emitting makes no list longer.** -/
theorem length_emit_le : (emit false ignore policy patterns).patterns.length ≤ patterns.length := by
  have htotal : (dedupe patterns).length =
      ((dedupe patterns).filter isExcluded).length +
        ((dedupe patterns).filter fun p => !isExcluded p).length :=
    List.length_eq_length_filter_add _
  have hkept : (eliminateRedundant ignore policy
      ((dedupe patterns).filter fun p => !isExcluded p)).length ≤
        ((dedupe patterns).filter fun p => !isExcluded p).length :=
    List.length_filter_le _ _
  have hunique := (dedupe_sublist patterns).length_le
  rw [length_emit, if_neg Bool.false_ne_true]
  omega

/-- **With braces, emitting gives no more patterns than without.** -/
theorem length_emit_braces_le (hpatterns : ∀ p ∈ patterns, .of '\n' ∉ p) (braces : Bool) :
    (emit braces ignore policy patterns).patterns.length ≤
      (emit false ignore policy patterns).patterns.length := by
  rw [length_emit, length_emit, if_neg Bool.false_ne_true]
  refine Nat.add_le_add_right ?_ _
  split
  · refine Emit.length_merge_le fun p hp => hpatterns p ?_
    exact mem_dedupe.1 (List.mem_of_mem_filter (List.mem_of_mem_filter hp))
  · exact le_rfl

end GlobPreset
