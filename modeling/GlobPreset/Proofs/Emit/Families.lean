import GlobPreset.Proofs.Pattern.DirectoryGlob
import GlobPreset.Proofs.Text.Order

/-!
# Families of patterns

Both merges are of one kind. The patterns of a family share what stands in front of a member and
what stands behind it, and they stand for themselves; so a pattern with the members in braces stands
for exactly those patterns, whatever else is in the list.

## Main definitions

* `Merge.IsFamily` — patterns that differ in one place.
* `Merge.Batch.Joins` — the batch puts the members of a family in braces.
* `Merge.Batch.IsExact` — the merged pattern stands for the patterns that it replaces.

## Main results

* `Merge.isFamily_siblings`, `Merge.isFamily_extensions` — the groups that are merged are families.
* `Merge.alternatives_applyBatches` — **exact batches keep the plain patterns** that a list stands
  for.
-/

set_option autoImplicit false

namespace GlobPreset.Merge

open GlobPreset.Path Text

/-! ### Families -/

/-- Patterns of a list that differ in one place, which is between `lead` and `behind`. -/
structure IsFamily (patterns : List Text) (lead behind : Text) (members : List Text) : Prop where
  /-- What stands in front has no part in a group. -/
  closed : Pattern.IsClosed lead
  /-- No group begins behind. -/
  noOpener : .of '{' ∉ behind
  /-- There are two members at least. -/
  several : 2 ≤ members.length
  /-- No character of a member has a meaning in a group. -/
  unmarked : ∀ m ∈ members, ∀ c ∈ m, isGroupMark c = false
  /-- Every member belongs to a pattern. -/
  grouped : ∀ m ∈ members, lead ++ (m ++ behind) ∈ patterns

namespace IsFamily

variable {patterns members : List Text} {lead behind : Text}

/-- A pattern of the family stands for itself. -/
lemma alternatives_eq (h : IsFamily patterns lead behind members) {m : Text} (hm : m ∈ members) :
    Pattern.alternatives (lead ++ (m ++ behind)) = [lead ++ (m ++ behind)] := by
  refine Pattern.alternatives_of_noGroup (Pattern.firstGroup?_append h.closed fun hmem => ?_)
  rcases List.mem_append.1 hmem with hmem | hmem
  · exact absurd (h.unmarked m hm _ hmem) (by decide)
  · exact h.noOpener hmem

/-- **The merged pattern stands for the patterns of the family.** -/
lemma mem_alternatives (h : IsFamily patterns lead behind members) {a : Text} :
    a ∈ Pattern.alternatives (lead ++ (braced members ++ behind)) ↔
      ∃ m ∈ members, a = lead ++ (m ++ behind) :=
  Pattern.mem_alternatives_braced h.closed h.noOpener h.several h.unmarked

end IsFamily

/-! ### Exact batches -/

/-- The batch puts the members of a family in braces, and is counted accordingly. -/
structure Batch.Joins (b : Batch) (lead behind : Text) (members : List Text) : Prop where
  /-- The merged pattern. -/
  merged_eq : b.merged = lead ++ (braced members ++ behind)
  /-- The replaced patterns, one for each member. -/
  replaced_eq : b.replaced = members.map fun m => lead ++ (m ++ behind)
  /-- All of them are counted. -/
  before_eq : b.application.before = members.length
  /-- The merged pattern is one. -/
  after_eq : b.application.after = 1

/-- The merged pattern stands for the replaced ones, which are patterns of the list and stand for
themselves. -/
structure Batch.IsExact (patterns : List Text) (b : Batch) : Prop where
  /-- What is replaced is in the list. -/
  listed : ∀ p ∈ b.replaced, p ∈ patterns
  /-- It stands for itself. -/
  alone : ∀ p ∈ b.replaced, Pattern.alternatives p = [p]
  /-- The merged pattern stands for it. -/
  mem_alternatives : ∀ a, a ∈ Pattern.alternatives b.merged ↔ a ∈ b.replaced

/-- **A family is merged exactly.** -/
lemma IsFamily.isExact {patterns members : List Text} {lead behind : Text} {b : Batch}
    (h : IsFamily patterns lead behind members)
    (hmerged : b.merged = lead ++ (braced members ++ behind))
    (hreplaced : ∀ p, p ∈ b.replaced ↔ ∃ m ∈ members, p = lead ++ (m ++ behind)) :
    b.IsExact patterns where
  listed p hp := by
    obtain ⟨m, hm, rfl⟩ := (hreplaced p).1 hp
    exact h.grouped m hm
  alone p hp := by
    obtain ⟨m, hm, rfl⟩ := (hreplaced p).1 hp
    exact h.alternatives_eq hm
  mem_alternatives a := by
    rw [hmerged, h.mem_alternatives, hreplaced]

/-- Joining the members of a family is exact. -/
lemma Batch.Joins.isExact {patterns members : List Text} {lead behind : Text} {b : Batch}
    (h : b.Joins lead behind members) (hfamily : IsFamily patterns lead behind members) :
    b.IsExact patterns :=
  hfamily.isExact h.merged_eq fun p => by simp [h.replaced_eq, eq_comm]

/-- What is in a list after some batches. -/
lemma mem_applyBatches {patterns : List Text} {batches : List Batch} {p : Text} :
    p ∈ (applyBatches patterns batches).patterns ↔
      (p ∈ patterns ∧ ∀ b ∈ batches, p ∉ b.replaced) ∨ ∃ b ∈ batches, b.merged = p := by
  simp [applyBatches]

/-- **Exact batches keep the plain patterns** that a list stands for. -/
lemma alternatives_applyBatches {patterns : List Text} {batches : List Batch}
    (h : ∀ b ∈ batches, b.IsExact patterns) (a : Text) :
    (∃ p ∈ (applyBatches patterns batches).patterns, a ∈ Pattern.alternatives p) ↔
      ∃ p ∈ patterns, a ∈ Pattern.alternatives p := by
  constructor
  · rintro ⟨p, hp, ha⟩
    rcases mem_applyBatches.1 hp with ⟨hp, -⟩ | ⟨b, hb, rfl⟩
    · exact ⟨p, hp, ha⟩
    · have hreplaced := ((h b hb).mem_alternatives a).1 ha
      refine ⟨a, (h b hb).listed a hreplaced, ?_⟩
      rw [(h b hb).alone a hreplaced]
      exact List.mem_singleton_self a
  · rintro ⟨p, hp, ha⟩
    by_cases hkept : ∀ b ∈ batches, p ∉ b.replaced
    · exact ⟨p, mem_applyBatches.2 (.inl ⟨hp, hkept⟩), ha⟩
    · -- a replaced pattern stands for itself, and the merged one for it
      simp only [not_forall, not_not] at hkept
      obtain ⟨b, hb, hreplaced⟩ := hkept
      rw [(h b hb).alone p hreplaced, List.mem_singleton] at ha
      subst ha
      exact ⟨b.merged, mem_applyBatches.2 (.inr ⟨b, hb, rfl⟩),
        ((h b hb).mem_alternatives a).2 hreplaced⟩

/-! ### Sibling directories -/

/-- The parent and the name of a directory pattern. -/
lemma sibling?_spec {pattern parent child : Text} (h : sibling? pattern = some (parent, child)) :
    (Pattern.recursiveDirectory? pattern).isSome = true ∧
      pattern = parent ++ .of '/' :: (child ++ Pattern.recursiveTail) ∧ parent ≠ [] ∧
      ∀ c ∈ child, isReserved c = false ∧ c ≠ .of '/' := by
  unfold sibling? at h
  split at h
  · rename_i hdirectory
    split at h
    · rename_i before behind hsplit
      split at h
      · cases h
      · rename_i hno
        obtain ⟨rfl, rfl⟩ := Prod.mk.inj (Option.some.inj h)
        simp only [Bool.or_eq_true, List.isEmpty_iff, not_or, Bool.not_eq_true,
          List.any_eq_false] at hno
        obtain ⟨hcut, hslash⟩ := splitLast?_eq_some.1 hsplit
        have htail : endsWith pattern Pattern.recursiveTail = true := by
          by_contra hnot
          simp [Pattern.recursiveDirectory?, hnot] at hdirectory
        obtain ⟨front, rfl⟩ := endsWith_iff.1 htail
        rw [show dropEnd 3 (front ++ Pattern.recursiveTail) = front from dropEnd_append _ _] at hcut
        refine ⟨hdirectory, by rw [hcut]; simp, hno.1.1, fun c hc => ⟨?_, ?_⟩⟩
        · simpa using hno.2 c hc
        · rintro rfl
          exact hslash hc
    · cases h
  · cases h

/-- A character that is not reserved does not mark a group. -/
lemma isGroupMark_of_isReserved {c : CodePoint} (h : isReserved c = false) :
    isGroupMark c = false := by
  rw [Bool.eq_false_iff] at h ⊢
  intro hmark
  refine h ?_
  simp only [isGroupMark, Bool.or_eq_true, beq_iff_eq] at hmark
  rcases hmark with ((rfl | rfl) | rfl) | rfl <;> decide

/-- The directory of a directory pattern is closed, and so is what its last slash cuts off. -/
lemma isClosed_parent {parent child : Text}
    (h : (Pattern.recursiveDirectory?
      (parent ++ .of '/' :: (child ++ Pattern.recursiveTail))).isSome =
      true) : Pattern.IsClosed (parent ++ [.of '/']) := by
  obtain ⟨d, hd⟩ := Option.isSome_iff_exists.1 h
  obtain ⟨head, htext, hmagic, -⟩ := Pattern.recursiveDirectory?_eq_some hd
  obtain rfl : parent ++ .of '/' :: child = head := by
    refine (List.append_left_inj Pattern.recursiveTail).1 ?_
    rw [← htext]
    simp
  have hopener : ∀ c, Pattern.isMagic c = false → (c == .of '{') = false := by
    intro c hc
    rw [beq_eq_false_iff_ne]
    rintro rfl
    exact absurd hc (by decide)
  rw [Pattern.hasMagic, Pattern.hasUnescaped_append_slash (by decide),
    Bool.or_eq_false_iff] at hmagic
  constructor
  · rw [Pattern.hasUnescaped_append_slash (by decide), Bool.or_eq_false_iff]
    exact ⟨Pattern.hasUnescaped_mono hopener hmagic.1, rfl⟩
  · rw [Bool.eq_false_iff]
    intro hdangles
    have hlast := Pattern.getLast?_of_dangles hdangles
    rw [List.getLast?_concat] at hlast
    exact absurd hlast (by decide)

/-- **Siblings are a family.** -/
lemma isFamily_siblings {patterns children : List Text} {parent : Text}
    (hgroup : (parent, children) ∈ groupPairs (patterns.filterMap sibling?))
    (hseveral : 2 ≤ children.length) :
    IsFamily patterns (parent ++ [.of '/']) Pattern.recursiveTail (sort children) := by
  have hlength : 2 ≤ (sort children).length := by rwa [sort, (sortBy_perm le children).length_eq]
  have hchild : ∀ child ∈ sort children, ∃ p ∈ patterns, sibling? p = some (parent, child) := by
    intro child hmem
    rw [mem_sort, (mem_groupPairs.1 hgroup).1, mem_valuesOf] at hmem
    exact List.mem_filterMap.1 hmem
  refine {
    closed := ?_
    noOpener := by decide
    several := hlength
    unmarked := fun child hmem c hc => ?_
    grouped := fun child hmem => ?_ }
  · obtain ⟨first, hfirst⟩ :=
      List.exists_mem_of_length_pos (Nat.lt_of_lt_of_le Nat.two_pos hlength)
    obtain ⟨p, -, hsibling⟩ := hchild first hfirst
    obtain ⟨hdirectory, rfl, -, -⟩ := sibling?_spec hsibling
    exact isClosed_parent hdirectory
  · obtain ⟨p, -, hsibling⟩ := hchild child hmem
    exact isGroupMark_of_isReserved ((sibling?_spec hsibling).2.2.2 c hc).1
  · obtain ⟨p, hp, hsibling⟩ := hchild child hmem
    rw [List.append_assoc, List.singleton_append, ← (sibling?_spec hsibling).2.1]
    exact hp

/-- What the merge of siblings does. -/
lemma joins_of_siblingBatch? {children : List Text} {parent : Text} {b : Batch}
    (h : siblingBatch? (parent, children) = some b) :
    2 ≤ children.length ∧ b.Joins (parent ++ [.of '/']) Pattern.recursiveTail (sort children) := by
  unfold siblingBatch? at h
  split at h
  · cases h
  · rename_i hseveral
    cases h
    exact ⟨Nat.le_of_not_lt hseveral, by simp, by simp, rfl, rfl⟩

/-! ### Extensions -/

/-- The stem and the extension of a pattern without line feeds. -/
lemma suffixed?_spec {pattern stem extension : Text} (hfeed : .of '\n' ∉ pattern)
    (h : suffixed? pattern = some (stem, extension)) :
    (∀ c ∈ pattern, isGroupMark c = false) ∧ pattern = stem ++ .of '.' :: extension ∧ stem ≠ [] ∧
      ∀ c ∈ extension, isAlphanumeric c = true := by
  have hline : withoutFinalFeed pattern = pattern := by
    unfold withoutFinalFeed
    rw [if_neg]
    intro hends
    obtain ⟨front, rfl⟩ := endsWith_iff.1 hends
    exact hfeed (List.mem_append_right _ (List.mem_singleton_self _))
  simp only [suffixed?, hline] at h
  split at h
  · cases h
  rename_i hmark
  simp only [Bool.or_eq_true, not_or, List.any_eq_true, not_exists, not_and] at hmark
  split at h
  · rename_i before behind hsplit
    split at h
    · cases h
    · rename_i hno
      obtain ⟨rfl, rfl⟩ := Prod.mk.inj (Option.some.inj h)
      simp only [Bool.or_eq_true, List.isEmpty_iff, not_or, Bool.not_eq_true', Bool.not_eq_false,
        List.all_eq_true] at hno
      exact ⟨fun c hc => Bool.eq_false_iff.2 (hmark.1 c hc), (splitLast?_eq_some.1 hsplit).1,
        hno.1.1.1, hno.2⟩
  · cases h

/-- A letter or a digit does not mark a group, and is no slash. -/
lemma isGroupMark_of_isAlphanumeric {c : CodePoint} (h : isAlphanumeric c = true) :
    isGroupMark c = false ∧ c ≠ .of '/' := by
  refine ⟨?_, ?_⟩
  · rw [Bool.eq_false_iff]
    intro hmark
    simp only [isGroupMark, Bool.or_eq_true, beq_iff_eq] at hmark
    rcases hmark with ((rfl | rfl) | rfl) | rfl <;> exact absurd h (by decide)
  · rintro rfl
    exact absurd h (by decide)

/-- **Patterns that differ in their extension are a family**, if there are no line feeds. -/
lemma isFamily_extensions {patterns extensions : List Text} {stem : Text}
    (hpatterns : ∀ p ∈ patterns, .of '\n' ∉ p)
    (hgroup : (stem, extensions) ∈ groupPairs (patterns.filterMap suffixed?))
    (hseveral : 2 ≤ (sort (dedupe extensions)).length) :
    IsFamily patterns (stem ++ [.of '.']) [] (sort (dedupe extensions)) := by
  have hspec : ∀ e ∈ sort (dedupe extensions), stem ++ .of '.' :: e ∈ patterns ∧
      (∀ c ∈ stem ++ .of '.' :: e, isGroupMark c = false) := by
    intro e hmem
    rw [mem_sort, mem_dedupe, (mem_groupPairs.1 hgroup).1, mem_valuesOf] at hmem
    obtain ⟨p, hp, hsuffixed⟩ := List.mem_filterMap.1 hmem
    obtain ⟨hmarks, rfl, -, -⟩ := suffixed?_spec (hpatterns p hp) hsuffixed
    exact ⟨hp, hmarks⟩
  obtain ⟨first, hfirst⟩ :=
    List.exists_mem_of_length_pos (Nat.lt_of_lt_of_le Nat.two_pos hseveral)
  have hlead : ∀ c ∈ stem ++ [.of '.'], isGroupMark c = false := fun c hc =>
    (hspec first hfirst).2 c (by simp only [List.mem_append, List.mem_cons] at hc ⊢; tauto)
  exact {
    closed := Pattern.isClosed_of_not_mem (fun hc => absurd (hlead _ hc) (by decide))
      fun hc => absurd (hlead _ hc) (by decide)
    noOpener := List.not_mem_nil
    several := hseveral
    unmarked := fun e hmem c hc => (hspec e hmem).2 c
      (List.mem_append_right _ (List.mem_cons_of_mem _ hc))
    grouped := fun e hmem => by
      rw [List.append_nil, List.append_assoc]
      exact (hspec e hmem).1 }

/-- What the merge of extensions does. -/
lemma joins_of_extensionBatch? {extensions : List Text} {stem : Text} {b : Batch}
    (h : extensionBatch? (stem, extensions) = some b) :
    2 ≤ (sort (dedupe extensions)).length ∧
      b.Joins (stem ++ [.of '.']) [] (sort (dedupe extensions)) := by
  simp only [extensionBatch?] at h
  split at h
  · cases h
  · rename_i hseveral
    cases h
    exact ⟨Nat.le_of_not_lt hseveral, by simp, by simp, rfl, rfl⟩

end GlobPreset.Merge
