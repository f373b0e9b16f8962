import Mathlib.Algebra.GroupWithZero.Nat
import GlobPreset.Proofs.Emit.Count

/-!
# What merging does to a list

Merging keeps the plain patterns that a list stands for, and what is recorded of the merges says by
how many patterns the list gets shorter. The record is exact only if no pattern that is read as a
member of a group stands in the list twice: both copies are replaced, but counted once.

## Main results

* `Merge.length_applyBatches` — the length of a list after merges, from what is recorded of them.
* `Emit.merge_exact` — **merging keeps the plain patterns** and accounts for the length.

## Design

The second merge works on a list that may hold a pattern twice even if the first one was given none
twice, because a merged pattern may have been there before. Such a pattern has a brace, so the
second merge does not touch it; this is why `Merge.length_applyBatches` asks for the patterns that
are read to be distinct, and for no others.
-/

set_option autoImplicit false

namespace GlobPreset

open Text

namespace Merge

variable {patterns : List Text}

/-! ### Counting what is replaced -/

/-- A batch counts what it replaces, two patterns at least, and the merged pattern as one. -/
structure Batch.Counts (b : Batch) : Prop where
  /-- What is counted before the merge. -/
  before_eq : b.application.before = b.replaced.length
  /-- What is counted after it. -/
  after_eq : b.application.after = 1
  /-- A merge joins two patterns at least. -/
  several : 2 ≤ b.replaced.length

/-- Joining two members or more is a merge that is counted. -/
lemma Batch.Joins.counts {b : Batch} {lead behind : Text} {members : List Text}
    (h : b.Joins lead behind members) (hseveral : 2 ≤ members.length) : b.Counts := by
  have hlength : b.replaced.length = members.length := by rw [h.replaced_eq, List.length_map]
  exact ⟨by rw [h.before_eq, hlength], h.after_eq, by omega⟩

/-- What batches take away, and themselves, are what they replace. -/
lemma sum_counts {batches : List Batch} (h : ∀ b ∈ batches, b.Counts) :
    (batches.map fun b => b.application.before - b.application.after).sum + batches.length =
      (batches.flatMap fun b => b.replaced).length := by
  induction batches with
  | nil => rfl
  | cons b batches ih =>
    obtain ⟨hbefore, hafter, hseveral⟩ := h b List.mem_cons_self
    have ih := ih fun b hb => h b (List.mem_cons_of_mem _ hb)
    simp only [List.map_cons, List.sum_cons, List.length_cons, List.flatMap_cons,
      List.length_append]
    omega

/-! ### Merging groups -/

section Groups

variable {write : Text → Text → Text} {read? : Text → Option (Text × Text)}
  {batch? : Text × List Text → Option Batch}
  (hwrite : ∀ p ∈ patterns, ∀ k m, read? p = some (k, m) → p = write k m)
  (hnodup : (patterns.filter fun p => (read? p).isSome).Nodup)
  (hreplaced : ∀ k members b, members.Nodup → batch? (k, members) = some b →
    b.replaced.Perm (members.map (write k)))

include hwrite in
/-- The pattern of a member is in the list, and is read as this member. -/
lemma read?_write {k m : Text} (h : m ∈ valuesOf k (patterns.filterMap read?)) :
    write k m ∈ patterns ∧ read? (write k m) = some (k, m) := by
  obtain ⟨p, hp, hread⟩ := List.mem_filterMap.1 (mem_valuesOf.1 h)
  obtain rfl := hwrite p hp k m hread
  exact ⟨hp, hread⟩

include hwrite hnodup in
/-- No group has a member twice. -/
lemma nodup_valuesOf (k : Text) : (valuesOf k (patterns.filterMap read?)).Nodup := by
  have hpairs : (patterns.filterMap read?).Nodup := by
    refine List.pairwise_filterMap.2 ((List.pairwise_filter.1 hnodup).imp_of_mem ?_)
    rintro p q hp hq hne ⟨k, m⟩ hread ⟨k', m'⟩ hread' heq
    cases heq
    refine hne (by rw [hread]; rfl) (by rw [hread']; rfl) ?_
    rw [hwrite p hp k m hread, hwrite q hq k m hread']
  refine (hpairs.filter _).map_on ?_
  rintro ⟨k₁, m⟩ h₁ ⟨k₂, m'⟩ h₂ rfl
  have hk₁ := (List.mem_filter.1 h₁).2
  have hk₂ := (List.mem_filter.1 h₂).2
  rw [decide_eq_true_eq] at hk₁ hk₂
  rw [show k₁ = k₂ from hk₁.trans hk₂.symm]

include hwrite hnodup hreplaced in
/-- What a batch replaces are the patterns of its group. -/
lemma replaced_spec {g : Text × List Text} (hg : g ∈ groupPairs (patterns.filterMap read?))
    {b : Batch} (hb : batch? g = some b) :
    b.replaced.Nodup ∧ ∀ p ∈ b.replaced, p ∈ patterns ∧ ∃ m, read? p = some (g.1, m) := by
  obtain ⟨k, members⟩ := g
  obtain ⟨rfl, -⟩ := mem_groupPairs.1 hg
  have hmembers := nodup_valuesOf hwrite hnodup k
  have hperm := hreplaced k _ b hmembers hb
  constructor
  · refine hperm.nodup_iff.2 (hmembers.map_on fun m hm m' hm' heq => ?_)
    have hread := (read?_write hwrite hm).2
    rw [heq, (read?_write hwrite hm').2] at hread
    cases hread
    rfl
  · intro p hp
    obtain ⟨m, hm, rfl⟩ := List.mem_map.1 (hperm.mem_iff.1 hp)
    obtain ⟨hmem, hread⟩ := read?_write hwrite hm
    exact ⟨hmem, m, hread⟩

include hwrite hnodup hreplaced in
/-- No pattern is replaced twice, for it is read as a member of one group only. -/
lemma nodup_replaced :
    (((groupPairs (patterns.filterMap read?)).filterMap batch?).flatMap
      fun b => b.replaced).Nodup := by
  refine List.nodup_flatMap.2 ⟨fun b hb => ?_, List.pairwise_filterMap.2 ?_⟩
  · obtain ⟨g, hg, hbatch⟩ := List.mem_filterMap.1 hb
    exact (replaced_spec hwrite hnodup hreplaced hg hbatch).1
  · refine (List.pairwise_map.1 (nodup_keys_groupPairs _)).imp_of_mem ?_
    intro g g' hg hg' hne b hb b' hb' p hp hp'
    obtain ⟨-, m, hread⟩ := (replaced_spec hwrite hnodup hreplaced hg hb).2 p hp
    obtain ⟨-, m', hread'⟩ := (replaced_spec hwrite hnodup hreplaced hg' hb').2 p hp'
    rw [hread, Option.some.injEq, Prod.mk.injEq] at hread'
    exact hne hread'.1

include hwrite hnodup hreplaced in
/-- **What is replaced is taken away**: every replaced pattern is in the list once. -/
lemma replaced_perm :
    let replaced := ((groupPairs (patterns.filterMap read?)).filterMap batch?).flatMap
      fun b => b.replaced
    replaced.Perm (patterns.filter replaced.contains) := by
  intro replaced
  have hmem : ∀ p ∈ replaced, p ∈ patterns ∧ (read? p).isSome = true := by
    intro p hp
    obtain ⟨b, hb, hp⟩ := List.mem_flatMap.1 hp
    obtain ⟨g, hg, hbatch⟩ := List.mem_filterMap.1 hb
    obtain ⟨hlisted, m, hread⟩ := (replaced_spec hwrite hnodup hreplaced hg hbatch).2 p hp
    exact ⟨hlisted, by rw [hread]; rfl⟩
  have htaken : (patterns.filter replaced.contains).Nodup := by
    refine List.pairwise_filter.2 ((List.pairwise_filter.1 hnodup).imp ?_)
    intro p q hne hp hq
    exact hne (hmem p (List.contains_iff_mem.1 hp)).2 (hmem q (List.contains_iff_mem.1 hq)).2
  apply (List.perm_ext_iff_of_nodup (nodup_replaced hwrite hnodup hreplaced) htaken).2
  intro p
  rw [List.mem_filter, List.contains_iff_mem]
  exact ⟨fun hp => ⟨(hmem p hp).1, hp⟩, fun hp => hp.2⟩

variable (write) in
include hwrite hnodup hreplaced in
/-- **The length of a list after merges**, from what is recorded of them: every batch takes away as
many patterns as it counts before, and puts one in their place. -/
theorem length_applyBatches (hcounts : ∀ g b, batch? g = some b → b.Counts) :
    let out := applyBatches patterns ((groupPairs (patterns.filterMap read?)).filterMap batch?)
    out.patterns.length + (out.applied.map fun r => r.before - r.after).sum = patterns.length := by
  intro out
  set batches := (groupPairs (patterns.filterMap read?)).filterMap batch? with hbatches
  have hsum : (batches.map fun b => b.application.before - b.application.after).sum +
      batches.length = (batches.flatMap fun b => b.replaced).length := by
    apply sum_counts
    intro b hb
    obtain ⟨g, -, hbatch⟩ := List.mem_filterMap.1 hb
    exact hcounts g b hbatch
  have htaken := (replaced_perm hwrite hnodup hreplaced).length_eq
  rw [← hbatches] at htaken
  have htotal : patterns.length =
      (patterns.filter (batches.flatMap fun b => b.replaced).contains).length +
        (patterns.filter fun p => !(batches.flatMap fun b => b.replaced).contains p).length :=
    List.length_eq_length_filter_add _
  simp only [out, ← hbatches, applyBatches, List.length_append, List.length_map, List.map_map,
    Function.comp_def]
  omega

end Groups

/-! ### Both merges -/

/-- A merge of siblings is counted. -/
lemma counts_of_siblingBatch? {g : Text × List Text} {b : Batch} (h : siblingBatch? g = some b) :
    b.Counts := by
  obtain ⟨hseveral, hjoins⟩ := joins_of_siblingBatch? h
  apply hjoins.counts
  rwa [sort, (sortBy_perm le g.2).length_eq]

/-- A merge of extensions is counted. -/
lemma counts_of_extensionBatch? {g : Text × List Text} {b : Batch}
    (h : extensionBatch? g = some b) : b.Counts := by
  obtain ⟨hseveral, hjoins⟩ := joins_of_extensionBatch? h
  exact hjoins.counts hseveral

/-- Merging siblings keeps the plain patterns. -/
lemma alternatives_directories (patterns : List Text) (a : Text) :
    (∃ p ∈ (directories patterns).patterns, a ∈ Pattern.alternatives p) ↔
      ∃ p ∈ patterns, a ∈ Pattern.alternatives p := by
  apply alternatives_applyBatches
  intro b hb
  obtain ⟨⟨parent, children⟩, hgroup, hbatch⟩ := List.mem_filterMap.1 hb
  obtain ⟨hseveral, hjoins⟩ := joins_of_siblingBatch? hbatch
  exact hjoins.isExact (isFamily_siblings hgroup hseveral)

/-- Merging extensions keeps the plain patterns. -/
lemma alternatives_extensions (hpatterns : ∀ p ∈ patterns, .of '\n' ∉ p) (a : Text) :
    (∃ p ∈ (extensions patterns).patterns, a ∈ Pattern.alternatives p) ↔
      ∃ p ∈ patterns, a ∈ Pattern.alternatives p := by
  apply alternatives_applyBatches
  intro b hb
  obtain ⟨⟨stem, members⟩, hgroup, hbatch⟩ := List.mem_filterMap.1 hb
  obtain ⟨hseveral, hjoins⟩ := joins_of_extensionBatch? hbatch
  exact hjoins.isExact (isFamily_extensions hpatterns hgroup hseveral)

/-- Merging siblings shortens a list by what it records. -/
lemma length_directories (hnodup : patterns.Nodup) :
    (directories patterns).patterns.length +
      ((directories patterns).applied.map fun r => r.before - r.after).sum = patterns.length := by
  refine length_applyBatches
    (fun parent child => parent ++ .of '/' :: (child ++ Pattern.recursiveTail))
    (fun p _ parent child h => (sibling?_spec h).2.1) (hnodup.filter _) ?_
    fun g b hb => counts_of_siblingBatch? hb
  intro parent children b _ hb
  obtain ⟨-, hjoins⟩ := joins_of_siblingBatch? hb
  have hsorted : (sort children).Perm children := sortBy_perm le children
  rw [hjoins.replaced_eq]
  simpa using hsorted.map fun child => parent ++ .of '/' :: (child ++ Pattern.recursiveTail)

/-- Merging extensions shortens a list by what it records. -/
lemma length_extensions (hpatterns : ∀ p ∈ patterns, .of '\n' ∉ p)
    (hnodup : (patterns.filter fun p => (suffixed? p).isSome).Nodup) :
    (extensions patterns).patterns.length +
      ((extensions patterns).applied.map fun r => r.before - r.after).sum = patterns.length := by
  refine length_applyBatches (fun stem extension => stem ++ .of '.' :: extension)
    (fun p hp stem extension h => (suffixed?_spec (hpatterns p hp) h).2.1) hnodup ?_
    fun g b hb => counts_of_extensionBatch? hb
  intro stem members b hmembers hb
  obtain ⟨-, hjoins⟩ := joins_of_extensionBatch? hb
  have hsorted : (sort members).Perm members := sortBy_perm le members
  rw [hjoins.replaced_eq, dedupe_eq_self hmembers]
  simpa using hsorted.map fun extension => stem ++ .of '.' :: extension

/-- A merged pattern is not merged again: it has a brace. -/
lemma suffixed?_of_mem {pattern : Text} (h : .of '{' ∈ pattern) : suffixed? pattern = none := by
  have hmark : pattern.any isGroupMark = true := List.any_eq_true.2 ⟨.of '{', h, by decide⟩
  simp [suffixed?, hmark]

/-- Among what the first merge leaves, the patterns that the second one reads are distinct. -/
lemma nodup_suffixed_directories (hnodup : patterns.Nodup) :
    ((directories patterns).patterns.filter fun p => (suffixed? p).isSome).Nodup := by
  have hmerged : ∀ b ∈ (groupPairs (patterns.filterMap sibling?)).filterMap siblingBatch?,
      suffixed? b.merged = none := by
    intro b hb
    obtain ⟨⟨parent, children⟩, -, hbatch⟩ := List.mem_filterMap.1 hb
    obtain ⟨-, hjoins⟩ := joins_of_siblingBatch? hbatch
    apply suffixed?_of_mem
    rw [hjoins.merged_eq]
    exact List.mem_append_right _ (List.mem_append_left _ List.mem_cons_self)
  have hnone : (((groupPairs (patterns.filterMap sibling?)).filterMap siblingBatch?).map
      fun b => b.merged).filter (fun p => (suffixed? p).isSome) = [] := by
    apply List.filter_eq_nil_iff.2
    intro p hp
    obtain ⟨b, hb, rfl⟩ := List.mem_map.1 hp
    simp [hmerged b hb]
  simp only [directories, applyBatches, List.filter_append, hnone, List.append_nil]
  exact (hnodup.filter _).filter _

end Merge

/-- **Merging keeps the plain patterns** of a list without line feeds and makes it no longer. Every
merge joins two patterns at least into one, and if no pattern stands in the list twice, it gets
shorter by what the merges record. -/
theorem Emit.merge_exact {patterns : List Text} (hpatterns : ∀ p ∈ patterns, .of '\n' ∉ p) :
    let out := merge patterns
    out.patterns.length ≤ patterns.length ∧
      (∀ a, (∃ p ∈ out.patterns, a ∈ Pattern.alternatives p) ↔
        ∃ p ∈ patterns, a ∈ Pattern.alternatives p) ∧
      (∀ r ∈ out.applied, 2 ≤ r.before ∧ r.after = 1) ∧
      (patterns.Nodup →
        out.patterns.length + (out.applied.map fun r => r.before - r.after).sum =
          patterns.length) := by
  have hfirst := Merge.not_mem_directories hpatterns
  refine ⟨length_merge_le hpatterns, fun a => ?_, fun r hr => ?_, fun hnodup => ?_⟩
  · calc (∃ p ∈ (merge patterns).patterns, a ∈ Pattern.alternatives p)
      _ ↔ ∃ p ∈ (Merge.directories patterns).patterns, a ∈ Pattern.alternatives p :=
        Merge.alternatives_extensions hfirst a
      _ ↔ ∃ p ∈ patterns, a ∈ Pattern.alternatives p := Merge.alternatives_directories patterns a
  · have hcounts : ∀ b : Merge.Batch, b.Counts → 2 ≤ b.application.before ∧
        b.application.after = 1 := fun b hb => ⟨hb.before_eq ▸ hb.several, hb.after_eq⟩
    rcases List.mem_append.1 hr with hr | hr
    all_goals
      obtain ⟨b, hb, rfl⟩ := List.mem_map.1 hr
      obtain ⟨g, -, hbatch⟩ := List.mem_filterMap.1 hb
    · exact hcounts b (Merge.counts_of_siblingBatch? hbatch)
    · exact hcounts b (Merge.counts_of_extensionBatch? hbatch)
  · have hsiblings := Merge.length_directories hnodup
    have hextensions := Merge.length_extensions hfirst (Merge.nodup_suffixed_directories hnodup)
    show (Merge.extensions (Merge.directories patterns).patterns).patterns.length +
      (((Merge.directories patterns).applied ++
        (Merge.extensions (Merge.directories patterns).patterns).applied).map
          fun r => r.before - r.after).sum = patterns.length
    rw [List.map_append, List.sum_append]
    omega

/-- Patterns of which both merges take two, and one with braces that the first merge makes again. -/
def mergeablePatterns : List Text :=
  ["a/b/**".toText, "a/d/**".toText, "a/{b,d}/**".toText, "f.c".toText, "f.o".toText]

/-- Three of five patterns are left, and one of them twice. -/
theorem Emit.merge_exact_mergeablePatterns :
    (merge mergeablePatterns).patterns =
        ["a/{b,d}/**".toText, "a/{b,d}/**".toText, "f.{c,o}".toText] ∧
      (merge mergeablePatterns).patterns.length +
        ((merge mergeablePatterns).applied.map fun r => r.before - r.after).sum = 5 := by
  have hfeed : ∀ p ∈ mergeablePatterns, .of '\n' ∉ p := by decide +kernel
  have hnodup : mergeablePatterns.Nodup := by decide +kernel
  obtain ⟨-, -, -, hlength⟩ := merge_exact hfeed
  exact ⟨by decide +kernel, hlength hnodup⟩

end GlobPreset
