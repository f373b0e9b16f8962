import Mathlib.Order.Lattice
import Mathlib.Order.OrderDual
import GlobPreset.Emit.Order
import GlobPreset.Proofs.Text.Order

/-!
# Orders by rank

Paths are sorted by depth, patterns by group, and within one rank by code point. All these tests are
linear, so what is sorted by one of them depends on the elements and their numbers alone, and so do
the groups of an association list, as far as one does not look at the order within a group.

## Main definitions

* `Text.IsLinear` — a test of two texts is that of a linear order.

## Main results

* `sortBy_eq_of_perm` — sorting forgets the order of a list whose elements are told apart.
* `Text.isLinear_of_rank` — a rank, and the order of texts within it, make a linear order.
* `Path.isLinear_deeperFirst`, `Path.isLinear_shallowerFirst`, `Emit.isLinear_precedes` — the tests
  of this kind.
* `filterMap_groupPairs_perm` — what is made of groups forgets the order of the list.
-/

set_option autoImplicit false

namespace GlobPreset

/-! ### Sorting -/

/-- **Sorting forgets the order of a list** whose elements the test tells apart. -/
lemma sortBy_eq_of_perm {α : Type} {le : α → α → Bool}
    (total : ∀ a b, le a b = true ∨ le b a = true)
    (trans : ∀ a b c, le a b = true → le b c = true → le a c = true) {l m : List α}
    (h : l.Perm m)
    (antisymm : ∀ a ∈ l, ∀ b ∈ l, le a b = true → le b a = true → a = b) :
    sortBy le l = sortBy le m := by
  refine List.Perm.eq_of_pairwise (fun a b ha hb hab hba => ?_) (sortBy_pairwise total trans l)
    (sortBy_pairwise total trans m) ((sortBy_perm le l).trans (h.trans (sortBy_perm le m).symm))
  exact antisymm a (mem_sortBy.1 ha) b (h.mem_iff.2 (mem_sortBy.1 hb)) hab hba

/-! ### Linear tests -/

namespace Text

/-- A test of two texts is that of a linear order. -/
structure IsLinear (test : Text → Text → Bool) : Prop where
  /-- Any two texts compare. -/
  total : ∀ s t, test s t = true ∨ test t s = true
  /-- The test is transitive. -/
  trans : ∀ s t u, test s t = true → test t u = true → test s u = true
  /-- Different texts compare in one way only. -/
  antisymm : ∀ s t, test s t = true → test t s = true → s = t

/-- **A rank, and the order of texts within it**, make a linear order. -/
lemma isLinear_of_rank {ρ : Type} [LinearOrder ρ] {test : Text → Text → Bool} (rank : Text → ρ)
    (h : ∀ s t, test s t = true ↔ rank s < rank t ∨ rank s = rank t ∧ le s t = true) :
    IsLinear test where
  total s t := by
    rw [h, h]
    rcases lt_trichotomy (rank s) (rank t) with hlt | heq | hlt
    · exact .inl (.inl hlt)
    · exact (le_total s t).imp (fun hle => .inr ⟨heq, hle⟩) fun hle => .inr ⟨heq.symm, hle⟩
    · exact .inr (.inl hlt)
  trans s t u hst htu := by
    rw [h] at hst htu ⊢
    rcases hst with hst | ⟨hst, hle⟩
    · rcases htu with htu | ⟨htu, -⟩
      · exact .inl (lt_trans hst htu)
      · exact .inl (htu ▸ hst)
    · rcases htu with htu | ⟨htu, hle'⟩
      · exact .inl (hst ▸ htu)
      · exact .inr ⟨hst.trans htu, le_trans hle hle'⟩
  antisymm s t hst hts := by
    rw [h] at hst hts
    rcases hst with hst | ⟨hst, hle⟩
    · rcases hts with hts | ⟨hts, -⟩
      · exact absurd hts (lt_asymm hst)
      · exact absurd hst (hts ▸ lt_irrefl _)
    · rcases hts with hts | ⟨-, hle'⟩
      · exact absurd hts (hst ▸ lt_irrefl _)
      · exact le_antisymm hle hle'

variable {test : Text → Text → Bool}

/-- Sorting by a linear order puts each text before those behind it. -/
lemma IsLinear.pairwise (h : IsLinear test) (l : List Text) :
    (sortBy test l).Pairwise (fun s t => test s t = true) :=
  sortBy_pairwise h.total h.trans l

/-- Sorting by a linear order does not depend on the order of the texts. -/
lemma IsLinear.sortBy_eq (h : IsLinear test) {l m : List Text} (hperm : l.Perm m) :
    sortBy test l = sortBy test m :=
  sortBy_eq_of_perm h.total h.trans hperm fun s _ t _ => h.antisymm s t

end Text

/-- Deeper paths first is a linear order. -/
lemma Path.isLinear_deeperFirst : Text.IsLinear deeperFirst := by
  refine Text.isLinear_of_rank (fun p => OrderDual.toDual (depth p)) fun p q => ?_
  simp [deeperFirst]

/-- Shallower paths first is a linear order. -/
lemma Path.isLinear_shallowerFirst : Text.IsLinear shallowerFirst := by
  refine Text.isLinear_of_rank depth fun p q => ?_
  simp [shallowerFirst]

/-- What stands behind, the deeper paths being first, is no deeper. -/
lemma Path.depth_le_of_deeperFirst {p q : Text} (h : deeperFirst p q = true) :
    depth q ≤ depth p := by
  simp only [deeperFirst, Bool.or_eq_true, decide_eq_true_eq, Bool.and_eq_true, beq_iff_eq] at h
  omega

/-- What stands behind, the shallower paths being first, is no shallower. -/
lemma Path.depth_le_of_shallowerFirst {p q : Text} (h : shallowerFirst p q = true) :
    depth p ≤ depth q := by
  simp only [shallowerFirst, Bool.or_eq_true, decide_eq_true_eq, Bool.and_eq_true,
    beq_iff_eq] at h
  omega

/-- Group by group is a linear order. -/
lemma Emit.isLinear_precedes : Text.IsLinear precedes := by
  refine Text.isLinear_of_rank groupOf fun p q => ?_
  simp [precedes]

/-! ### Groups -/

section Groups

variable {α β γ : Type} [DecidableEq α]

/-- Every group holds the values of its key. -/
lemma groupPairs_eq_map (pairs : List (α × β)) :
    groupPairs pairs =
      ((groupPairs pairs).map Prod.fst).map fun k => (k, valuesOf k pairs) := by
  rw [List.map_map]
  refine (List.map_id _).symm.trans (List.map_congr_left ?_)
  rintro ⟨k, bs⟩ hg
  rw [(mem_groupPairs.1 hg).1]
  rfl

/-- The keys of the groups are those of the pairs. -/
lemma mem_keys_groupPairs {k : α} {pairs : List (α × β)} :
    k ∈ (groupPairs pairs).map Prod.fst ↔ k ∈ pairs.map Prod.fst := by
  constructor
  · rintro hk
    obtain ⟨⟨_, bs⟩, hg, rfl⟩ := List.mem_map.1 hk
    obtain ⟨rfl, hne⟩ := mem_groupPairs.1 hg
    obtain ⟨b, hb⟩ := List.exists_mem_of_ne_nil _ hne
    exact List.mem_map.2 ⟨_, mem_valuesOf.1 hb, rfl⟩
  · rintro hk
    obtain ⟨⟨_, b⟩, hp, rfl⟩ := List.mem_map.1 hk
    exact List.mem_map.2
      ⟨_, mem_groupPairs.2 ⟨rfl, List.ne_nil_of_mem (mem_valuesOf.2 hp)⟩, rfl⟩

/-- **What is made of groups forgets the order of the list**, if it is the same for groups with the
same values. -/
lemma filterMap_groupPairs_perm {f : α × List β → Option γ}
    (hf : ∀ k {bs bs' : List β}, bs.Perm bs' → f (k, bs) = f (k, bs')) {pairs pairs' : List (α × β)}
    (h : pairs.Perm pairs') :
    ((groupPairs pairs).filterMap f).Perm ((groupPairs pairs').filterMap f) := by
  have hkeys : ((groupPairs pairs).map Prod.fst).Perm ((groupPairs pairs').map Prod.fst) := by
    refine (List.perm_ext_iff_of_nodup (nodup_keys_groupPairs _) (nodup_keys_groupPairs _)).2 ?_
    intro k
    rw [mem_keys_groupPairs, mem_keys_groupPairs, (h.map Prod.fst).mem_iff]
  have hmade : ∀ qs : List (α × β), (groupPairs qs).filterMap f =
      ((groupPairs qs).map Prod.fst).filterMap fun k => f (k, valuesOf k qs) := by
    intro qs
    conv_lhs => rw [groupPairs_eq_map qs, List.filterMap_map]
    rfl
  have hvalues : ∀ k, f (k, valuesOf k pairs) = f (k, valuesOf k pairs') := fun k =>
    hf k ((h.filter _).map _)
  rw [hmade pairs, hmade pairs']
  simp only [hvalues]
  exact hkeys.filterMap _

end Groups

end GlobPreset
