import GlobPreset.Proofs.Collapse.Glob
import GlobPreset.Proofs.Emit.Families
import GlobPreset.Proofs.Pattern.Stored

/-!
# Merging keeps the meaning

Merging puts one pattern with braces in the place of several patterns. The merged pattern stands for
exactly those, and it can be stored and is safe as they are. Both merges are of one kind: the
patterns of a group share what stands in front of a member and what stands behind it.

## Main definitions

* `Pattern.IsWritable` — the pattern can be stored, and nothing unsafe is read from it.
* `Merge.IsGroup` — patterns that differ in one place.
* `Merge.Batch.IsSound` — the batch merges a group.

## Main results

* `Glob.IsProper.isWritable` — the patterns of a run are writable.
* `Merge.IsGroup.isWritable` — so are merged ones.
* `Emit.merge_spec` — merging keeps the plain patterns that the patterns stand for.
-/

set_option autoImplicit false

namespace GlobPreset

open GlobPreset.Path Text

/-! ### Patterns that can be written -/

/-- The pattern can be stored, and nothing unsafe is read from it. -/
structure Pattern.IsWritable (pattern : Text) : Prop where
  /-- Reading it as a line gives it back. -/
  stored : PatternList.IsStored pattern
  /-- All of its readings are safe. -/
  safe : ∀ r ∈ Pattern.readings pattern, unsafeCause? r = none

/-- A line keeps its end if it ends without blanks. -/
lemma PatternList.keepsEnd_of_tail (lead : Text) {tail : Text} (hne : tail ≠ [])
    (h : ∀ c ∈ tail, isBlank c = false) : KeepsEnd (lead ++ tail) := by
  obtain ⟨front, c, rfl⟩ := List.eq_nil_or_concat' tail |>.resolve_left hne
  exact .inl ⟨lead ++ front, c, (List.append_assoc ..).symm,
    h c (List.mem_append_right _ (List.mem_singleton_self c))⟩

namespace Glob

variable {g : Glob}

/-- The characters of a tail are neither blanks nor line boundaries. -/
lemma IsProper.tail_spec (h : g.IsProper) {c : CodePoint} (hc : c ∈ g.tail) :
    isBlank c = false ∧ isLineBoundary c = false := by
  rcases h.mem_tail hc with rfl | rfl | rfl | hplain
  · decide
  · decide
  · decide
  · exact ⟨isBlank_eq_false (toNat_of_isPlainInExtension hplain),
      isLineBoundary_eq_false (toNat_of_isPlainInExtension hplain)⟩

/-- A pattern of a run is stored as it is. -/
lemma IsProper.isStored_text (h : g.IsProper) : PatternList.IsStored g.text := by
  have hboundary : g.tail.any isLineBoundary = false :=
    List.any_eq_false.2 fun c hc => by simp [(h.tail_spec hc).2]
  by_cases hfile : g.tail = []
  · obtain ⟨path, rfl⟩ : ∃ path, g = .file path := by
      cases g with
      | file path => exact ⟨path, rfl⟩
      | tree directory => cases hfile
      | direct directory extension => cases hfile
      | deep directory extension => cases hfile
      | everywhere extension => cases hfile
    rw [text, hfile, List.append_nil]
    exact PatternList.isStored_escapeLiteral h
  have hends : PatternList.KeepsEnd g.text :=
    PatternList.keepsEnd_of_tail _ hfile fun c hc => (h.tail_spec hc).1
  rcases h.base_eq_nil_or with ⟨extension, rfl⟩ | htame
  · exact {
      noBoundary := hboundary
      starts := ⟨.of '*', _, rfl, by decide⟩
      noDots := fun hdots => absurd (List.cons_prefix_cons.1 hdots).1 (by decide)
      keepsEnd := hends }
  · exact PatternList.isStored_literal htame hboundary hends

/-- **The patterns of a run are writable.** -/
lemma IsProper.isWritable (h : g.IsProper) : Pattern.IsWritable g.text :=
  ⟨h.isStored_text, h.readings_safe⟩

end Glob

namespace Merge

/-! ### Groups -/

/-- Patterns that differ in one place, which is between `lead` and `behind`. -/
structure IsGroup (patterns : List Text) (lead behind : Text) (members : List Text) : Prop where
  /-- What stands in front has no part in a group. -/
  closed : Pattern.IsClosed lead
  /-- It has two characters at least, and does not start like a share. -/
  leads : ∃ x y rest, lead = x :: y :: rest ∧ (isSeparator x = false ∨ isSeparator y = false)
  /-- Nothing or the end of a directory pattern stands behind. -/
  ends : behind = [] ∨ behind = Pattern.recursiveTail
  /-- There are two members at least. -/
  several : 2 ≤ members.length
  /-- A member has neither slashes nor characters with a meaning in a group. -/
  plain : ∀ m ∈ members, ∀ c ∈ m, isGroupMark c = false ∧ c ≠ .of '/'
  /-- Every member belongs to a pattern. -/
  grouped : ∀ m ∈ members, lead ++ (m ++ behind) ∈ patterns

namespace IsGroup

variable {patterns members : List Text} {lead behind : Text}

/-- The characters of a group in braces are those of its members, braces and commas. -/
lemma mem_braced {c : CodePoint} (hc : c ∈ braced members) :
    (c = .of '{' ∨ c = .of ',' ∨ c = .of '}') ∨ ∃ m ∈ members, c ∈ m := by
  rcases List.mem_cons.1 hc with rfl | hc
  · exact .inl (.inl rfl)
  · rcases List.mem_append.1 hc with hc | hc
    · exact (mem_joinWith hc).imp_left fun hcomma => .inr (.inl (List.mem_singleton.1 hcomma))
    · exact .inl (.inr (.inr (List.mem_singleton.1 hc)))

/-- What holds of the characters of the patterns holds of those of the merged pattern. -/
lemma forall_mem (h : IsGroup patterns lead behind members) {P : CodePoint → Prop}
    (hbraces : P (.of '{') ∧ P (.of ',') ∧ P (.of '}')) (hpatterns : ∀ p ∈ patterns, ∀ c ∈ p, P c) :
    ∀ c ∈ lead ++ (braced members ++ behind), P c := by
  obtain ⟨m, hm⟩ := List.exists_mem_of_length_pos (Nat.lt_of_lt_of_le Nat.two_pos h.several)
  have hmember : ∀ m' ∈ members, ∀ c ∈ lead ++ (m' ++ behind), P c := fun m' hm' =>
    hpatterns _ (h.grouped m' hm')
  intro c hc
  simp only [List.mem_append] at hc hmember
  rcases hc with hc | hc | hc
  · exact hmember m hm c (.inl hc)
  · rcases mem_braced hc with (rfl | rfl | rfl) | ⟨m', hm', hc⟩
    · exact hbraces.1
    · exact hbraces.2.1
    · exact hbraces.2.2
    · exact hmember m' hm' c (.inr (.inl hc))
  · exact hmember m hm c (.inr (.inr hc))

/-- What is behind the members of a group opens no group. -/
lemma not_mem_behind (h : IsGroup patterns lead behind members) : .of '{' ∉ behind := by
  rcases h.ends with rfl | rfl <;> decide

/-- A group is a family. -/
lemma isFamily (h : IsGroup patterns lead behind members) :
    IsFamily patterns lead behind members where
  closed := h.closed
  noOpener := h.not_mem_behind
  several := h.several
  unmarked := fun m hm c hc => (h.plain m hm c hc).1
  grouped := h.grouped

/-- The merged pattern has no parent segment if the patterns have none: the segment with the braces
is none. -/
lemma hasParentSegment_eq (h : IsGroup patterns lead behind members)
    (hsafe : ∀ p ∈ patterns, hasParentSegment (toSlashes p) = false) :
    hasParentSegment (toSlashes (lead ++ (braced members ++ behind))) = false := by
  obtain ⟨m, hm⟩ := List.exists_mem_of_length_pos (Nat.lt_of_lt_of_le Nat.two_pos h.several)
  have hmsafe := hsafe _ (h.grouped m hm)
  obtain ⟨front, last, hcut⟩ : ∃ front last, segments (toSlashes lead) = front ++ [last] :=
    List.eq_nil_or_concat' _ |>.resolve_left (segments_ne_nil _)
  -- in front of `behind`, the merged pattern and the patterns differ in the last segment alone
  have hsegments : ∀ piece : Text, .of '/' ∉ piece → .of '\\' ∉ piece →
      segments (toSlashes (lead ++ (piece ++ behind))) =
        front ++ (last ++ piece) :: (segments behind).tail := by
    intro piece hslash hback
    have hpiece : segments (toSlashes (lead ++ piece)) = front ++ [last ++ piece] := by
      rw [toSlashes_append, toSlashes_eq_self hback]
      exact splitOn_append_last hcut hslash
    rcases h.ends with rfl | rfl
    · rw [List.append_nil, hpiece]
      rfl
    · rw [← List.append_assoc, Pattern.recursiveTail, segments_toSlashes_append, hpiece,
        List.append_assoc]
      rfl
  have hplain : ∀ c ∈ braced members, c ≠ .of '/' ∧ c ≠ .of '\\' := by
    intro c hc
    rcases mem_braced hc with (rfl | rfl | rfl) | ⟨m', hm', hc⟩
    · decide
    · decide
    · decide
    · refine ⟨(h.plain m' hm' c hc).2, ?_⟩
      rintro rfl
      exact absurd (h.plain m' hm' _ hc).1 (by decide)
  have hmplain : .of '/' ∉ m ∧ .of '\\' ∉ m :=
    ⟨fun hc => (h.plain m hm _ hc).2 rfl, fun hc => absurd (h.plain m hm _ hc).1 (by decide)⟩
  rw [hasParentSegment, hsegments m hmplain.1 hmplain.2] at hmsafe
  rw [hasParentSegment, hsegments _ (fun hc => (hplain _ hc).1 rfl) fun hc => (hplain _ hc).2 rfl]
  rw [List.any_append, List.any_cons, Bool.or_eq_false_iff, Bool.or_eq_false_iff] at hmsafe ⊢
  refine ⟨hmsafe.1, ?_, hmsafe.2.2⟩
  rw [beq_eq_false_iff_ne]
  intro hdots
  have hbrace : .of '{' ∈ last ++ braced members := List.mem_append_right _ List.mem_cons_self
  rw [hdots] at hbrace
  exact absurd hbrace (by decide)

/-- **The merged pattern is writable** if the patterns are. -/
lemma isWritable (h : IsGroup patterns lead behind members)
    (hpatterns : ∀ p ∈ patterns, Pattern.IsWritable p) :
    Pattern.IsWritable (lead ++ (braced members ++ behind)) := by
  obtain ⟨m, hm⟩ := List.exists_mem_of_length_pos (Nat.lt_of_lt_of_le Nat.two_pos h.several)
  obtain ⟨x, y, rest, hlead, hsep⟩ := h.leads
  have hwritable := hpatterns _ (h.grouped m hm)
  have hself : ∀ p ∈ patterns, unsafeCause? p = none := fun p hp =>
    (hpatterns p hp).safe p List.mem_cons_self
  have hmsafe := unsafeCause?_eq_none.1 (hself _ (h.grouped m hm))
  have hnul : .of '\x00' ∉ lead ++ (braced members ++ behind) := by
    have hall := h.forall_mem (P := fun c => c ≠ .of '\x00') (by decide) fun p hp c hc => by
      rintro rfl
      exact (unsafeCause?_eq_none.1 (hself p hp)).1 hc
    exact fun hmem => hall _ hmem rfl
  have habsolute : isAbsolute (lead ++ (braced members ++ behind)) = false := by
    have hm := hmsafe.2.1
    rw [hlead, isAbsolute, List.cons_append, List.cons_append, hasDrive_cons_cons hsep] at hm ⊢
    exact hm
  have hunsafe : unsafeCause? (lead ++ (braced members ++ behind)) = none :=
    unsafeCause?_eq_none.2 ⟨hnul, habsolute, h.hasParentSegment_eq fun p hp =>
      (unsafeCause?_eq_none.1 (hself p hp)).2.2⟩
  refine ⟨{ noBoundary := ?_, starts := ?_, noDots := ?_, keepsEnd := ?_ }, fun r hr => ?_⟩
  · have hall := h.forall_mem (P := fun c => isLineBoundary c = false) (by decide) fun p hp c hc =>
      Bool.eq_false_iff.2 (List.any_eq_false.1 (hpatterns p hp).stored.noBoundary c hc)
    exact List.any_eq_false.2 fun c hc => by simp [hall c hc]
  · obtain ⟨c, others, heq, hc⟩ := hwritable.stored.starts
    rw [hlead] at heq
    obtain ⟨rfl, -⟩ := List.cons.inj heq
    exact ⟨x, _, by rw [hlead]; rfl, hc⟩
  · have hdots := hwritable.stored.noDots
    rw [hlead, List.cons_append, List.cons_append, List.cons_prefix_cons,
      List.cons_prefix_cons] at hdots ⊢
    rintro ⟨hx, hy, -⟩
    exact hdots ⟨hx, hy, List.nil_prefix⟩
  · rcases h.ends with rfl | rfl
    · rw [List.append_nil, braced, ← List.cons_append, ← List.append_assoc]
      exact .inl ⟨_, .of '}', rfl, by decide⟩
    · exact .inl ⟨lead ++ braced members ++ [.of '/', .of '*'], .of '*',
        by simp [Pattern.recursiveTail],
        by decide⟩
  · rcases List.mem_cons.1 hr with rfl | hr
    · exact hunsafe
    · -- a plain alternative is one of the patterns, and so are its readings
      obtain ⟨a, ha, hr⟩ := List.mem_flatMap.1 hr
      obtain ⟨m', hm', rfl⟩ := h.isFamily.mem_alternatives.1 ha
      refine (hpatterns _ (h.grouped m' hm')).safe r ?_
      rw [Pattern.readings, h.isFamily.alternatives_eq hm', List.flatMap_singleton]
      exact List.mem_cons_of_mem _ hr

end IsGroup

/-! ### Batches -/

/-- The batch merges a group. -/
def Batch.IsSound (patterns : List Text) (b : Batch) : Prop :=
  ∃ lead behind members, IsGroup patterns lead behind members ∧
    b.merged = lead ++ (braced members ++ behind) ∧
    ∀ p, p ∈ b.replaced ↔ ∃ m ∈ members, p = lead ++ (m ++ behind)

/-- A sound merge is exact. -/
lemma Batch.IsSound.isExact {patterns : List Text} {b : Batch} (h : b.IsSound patterns) :
    b.IsExact patterns := by
  obtain ⟨lead, behind, members, hgroup, hmerged, hreplaced⟩ := h
  exact hgroup.isFamily.isExact hmerged hreplaced

/-- **Applying batches keeps the plain patterns** that the patterns stand for, and merges writable
patterns into writable ones. -/
lemma applyBatches_spec {patterns : List Text} (batches : List Batch)
    (hpatterns : ∀ p ∈ patterns, Pattern.IsWritable p)
    (hbatches : ∀ b ∈ batches, b.IsSound patterns) :
    (∀ p ∈ (applyBatches patterns batches).patterns, Pattern.IsWritable p) ∧
      ∀ a, (∃ p ∈ (applyBatches patterns batches).patterns, a ∈ Pattern.alternatives p) ↔
        ∃ p ∈ patterns, a ∈ Pattern.alternatives p := by
  refine ⟨fun p hp => ?_, alternatives_applyBatches fun b hb => (hbatches b hb).isExact⟩
  rcases mem_applyBatches.1 hp with ⟨hp, -⟩ | ⟨b, hb, rfl⟩
  · exact hpatterns p hp
  · obtain ⟨lead, behind, members, hgroup, hmerged, -⟩ := hbatches b hb
    rw [hmerged]
    exact hgroup.isWritable hpatterns

/-! ### Sibling directories -/

/-- A spelling of a tame path does not start with two separators. -/
lemma isSeparator_spelled {s path rest : Text} {x y : CodePoint} (h : Pattern.Spells s path)
    (hpath : IsTame path) (hs : s = x :: y :: rest) :
    isSeparator x = false ∨ isSeparator y = false := by
  subst hs
  cases h with
  | plain _ _ => exact .inl (hpath.isClean.isSeparator_head rfl)
  | escaped _ _ => exact .inr (hpath.isClean.isSeparator_head rfl)

/-- Siblings are a group. -/
lemma isSound_of_siblingBatch {patterns children : List Text} {parent : Text} {b : Batch}
    (hpatterns : ∀ p ∈ patterns, ∃ g : Glob, g.IsProper ∧ p = g.text)
    (hgroup : (parent, children) ∈ groupPairs (patterns.filterMap sibling?))
    (h : siblingBatch? (parent, children) = some b) : b.IsSound patterns := by
  obtain ⟨hseveral, hjoins⟩ := joins_of_siblingBatch? h
  have hfamily := isFamily_siblings hgroup hseveral
  have hchild : ∀ child ∈ sort children, ∃ p ∈ patterns, sibling? p = some (parent, child) := by
    intro child hmem
    rw [mem_sort, (mem_groupPairs.1 hgroup).1, mem_valuesOf] at hmem
    exact List.mem_filterMap.1 hmem
  refine ⟨parent ++ [.of '/'], Pattern.recursiveTail, sort children, {
    closed := hfamily.closed
    leads := ?_
    ends := .inr rfl
    several := hfamily.several
    plain := fun child hmem c hc => ⟨hfamily.unmarked child hmem c hc, ?_⟩
    grouped := hfamily.grouped }, hjoins.merged_eq, fun r => by simp [hjoins.replaced_eq, eq_comm]⟩
  · -- the parent is spelled, being the start of a spelled directory
    obtain ⟨first, hfirst⟩ :=
      List.exists_mem_of_length_pos (Nat.lt_of_lt_of_le Nat.two_pos hfamily.several)
    obtain ⟨p, hp, hsibling⟩ := hchild first hfirst
    obtain ⟨hdirectory, htext, hparent, -⟩ := sibling?_spec hsibling
    obtain ⟨g, hg, rfl⟩ := hpatterns p hp
    rw [hg.recursiveDirectory?_text] at hdirectory
    obtain ⟨d, rfl⟩ : ∃ d, g = .tree d := by
      cases g with
      | tree d => exact ⟨d, rfl⟩
      | file path => cases hdirectory
      | direct directory extension => cases hdirectory
      | deep directory extension => cases hdirectory
      | everywhere extension => cases hdirectory
    have hspelled : Pattern.escapeLiteral d = parent ++ .of '/' :: first := by
      refine (List.append_left_inj Pattern.recursiveTail).1 ?_
      rw [List.append_assoc]
      exact htext
    have hspells := Pattern.spells_escapeLiteral d
    obtain ⟨x, others, rfl⟩ := List.exists_cons_of_ne_nil hparent
    cases others with
    | nil => exact ⟨x, .of '/', [], rfl, isSeparator_spelled hspells hg hspelled⟩
    | cons y others => exact ⟨x, y, _, rfl, isSeparator_spelled hspells hg hspelled⟩
  · obtain ⟨p, -, hsibling⟩ := hchild child hmem
    exact ((sibling?_spec hsibling).2.2.2 c hc).2

/-! ### Extensions -/

/-- Patterns that differ in their extension are a group. -/
lemma isSound_of_extensionBatch {patterns extensions : List Text} {stem : Text} {b : Batch}
    (hpatterns : ∀ p ∈ patterns, Pattern.IsWritable p)
    (hgroup : (stem, extensions) ∈ groupPairs (patterns.filterMap suffixed?))
    (h : extensionBatch? (stem, extensions) = some b) : b.IsSound patterns := by
  have hfeed : ∀ p ∈ patterns, .of '\n' ∉ p := fun p hp hc =>
    List.any_eq_false.1 (hpatterns p hp).stored.noBoundary _ hc (by decide)
  obtain ⟨hseveral, hjoins⟩ := joins_of_extensionBatch? h
  have hfamily := isFamily_extensions hfeed hgroup hseveral
  have hspec : ∀ e ∈ sort (dedupe extensions), stem ++ .of '.' :: e ∈ patterns ∧
      (∀ c ∈ stem ++ .of '.' :: e, isGroupMark c = false) ∧ stem ≠ [] ∧
      ∀ c ∈ e, isAlphanumeric c = true := by
    intro e hmem
    rw [mem_sort, mem_dedupe, (mem_groupPairs.1 hgroup).1, mem_valuesOf] at hmem
    obtain ⟨p, hp, hsuffixed⟩ := List.mem_filterMap.1 hmem
    obtain ⟨hmarks, rfl, hstem, halnum⟩ := suffixed?_spec (hfeed p hp) hsuffixed
    exact ⟨hp, hmarks, hstem, halnum⟩
  refine ⟨stem ++ [.of '.'], [], sort (dedupe extensions), {
    closed := hfamily.closed
    leads := ?_
    ends := .inl rfl
    several := hfamily.several
    plain := fun e hmem c hc => isGroupMark_of_isAlphanumeric ((hspec e hmem).2.2.2 c hc)
    grouped := hfamily.grouped }, hjoins.merged_eq, fun r => by simp [hjoins.replaced_eq, eq_comm]⟩
  -- a safe pattern does not start with a slash, and this one has no backslash
  obtain ⟨first, hfirst⟩ :=
    List.exists_mem_of_length_pos (Nat.lt_of_lt_of_le Nat.two_pos hfamily.several)
  obtain ⟨hp, hmarks, hstem, -⟩ := hspec first hfirst
  have habsolute := (unsafeCause?_eq_none.1 ((hpatterns _ hp).safe _ List.mem_cons_self)).2.1
  obtain ⟨x, others, rfl⟩ := List.exists_cons_of_ne_nil hstem
  have hback := hmarks x List.mem_cons_self
  simp only [isAbsolute, List.cons_append, List.head?_cons, Bool.or_eq_false_iff,
    beq_eq_false_iff_ne, ne_eq, Option.some.injEq] at habsolute
  simp only [isGroupMark, Bool.or_eq_false_iff, beq_eq_false_iff_ne] at hback
  have hx : isSeparator x = false := by
    simp [isSeparator, habsolute.1, hback.2]
  cases others with
  | nil => exact ⟨x, .of '.', [], rfl, .inl hx⟩
  | cons y others => exact ⟨x, y, _, rfl, .inl hx⟩

end Merge

/-! ### Both merges -/

namespace Emit

open Merge

variable {patterns : List Text}

/-- The patterns of a run are writable, and stand for themselves. -/
lemma glob_spec (hpatterns : ∀ p ∈ patterns, ∃ g : Glob, g.IsProper ∧ p = g.text) :
    (∀ p ∈ patterns, Pattern.IsWritable p) ∧
      ∀ a, (∃ p ∈ patterns, a ∈ Pattern.alternatives p) ↔ a ∈ patterns := by
  refine ⟨fun p hp => ?_, fun a => ⟨?_, fun hp => ?_⟩⟩
  · obtain ⟨g, hg, rfl⟩ := hpatterns p hp
    exact hg.isWritable
  · rintro ⟨p, hp, ha⟩
    obtain ⟨g, hg, rfl⟩ := hpatterns p hp
    rw [hg.alternatives_text, List.mem_singleton] at ha
    exact ha ▸ hp
  · obtain ⟨g, hg, rfl⟩ := hpatterns a hp
    exact ⟨_, hp, by rw [hg.alternatives_text]; exact List.mem_cons_self⟩

/-- Merging the siblings among the patterns of a run. -/
lemma directories_spec (hpatterns : ∀ p ∈ patterns, ∃ g : Glob, g.IsProper ∧ p = g.text) :
    (∀ p ∈ (directories patterns).patterns, Pattern.IsWritable p) ∧
      ∀ a, (∃ p ∈ (directories patterns).patterns, a ∈ Pattern.alternatives p) ↔
        ∃ p ∈ patterns, a ∈ Pattern.alternatives p := by
  refine applyBatches_spec _ (glob_spec hpatterns).1 fun b hb => ?_
  obtain ⟨⟨parent, children⟩, hgroup, hbatch⟩ := List.mem_filterMap.1 hb
  exact isSound_of_siblingBatch hpatterns hgroup hbatch

/-- Merging the extensions of writable patterns. -/
lemma extensions_spec (hpatterns : ∀ p ∈ patterns, Pattern.IsWritable p) :
    (∀ p ∈ (extensions patterns).patterns, Pattern.IsWritable p) ∧
      ∀ a, (∃ p ∈ (extensions patterns).patterns, a ∈ Pattern.alternatives p) ↔
        ∃ p ∈ patterns, a ∈ Pattern.alternatives p := by
  refine applyBatches_spec _ hpatterns fun b hb => ?_
  obtain ⟨⟨stem, extensions⟩, hgroup, hbatch⟩ := List.mem_filterMap.1 hb
  exact isSound_of_extensionBatch hpatterns hgroup hbatch

/-- **Merging keeps the plain patterns** of a run, and merged patterns are writable. -/
theorem merge_spec (hpatterns : ∀ p ∈ patterns, ∃ g : Glob, g.IsProper ∧ p = g.text) :
    (∀ p ∈ (merge patterns).patterns, Pattern.IsWritable p) ∧
      ∀ a, (∃ p ∈ (merge patterns).patterns, a ∈ Pattern.alternatives p) ↔ a ∈ patterns := by
  obtain ⟨hfirst, hdirectories⟩ := directories_spec hpatterns
  obtain ⟨hsecond, hextensions⟩ := extensions_spec hfirst
  refine ⟨hsecond, fun a => ?_⟩
  calc (∃ p ∈ (merge patterns).patterns, a ∈ Pattern.alternatives p)
    _ ↔ ∃ p ∈ (directories patterns).patterns, a ∈ Pattern.alternatives p := hextensions a
    _ ↔ ∃ p ∈ patterns, a ∈ Pattern.alternatives p := hdirectories a
    _ ↔ a ∈ patterns := (glob_spec hpatterns).2 a

/-- The same holds whether or not braces are asked for. -/
lemma braces_spec (braces : Bool) (hpatterns : ∀ p ∈ patterns, ∃ g : Glob, g.IsProper ∧ p = g.text)
    {out : Outcome} (hout : out = if braces then merge patterns else ⟨patterns, []⟩) :
    (∀ p ∈ out.patterns, Pattern.IsWritable p) ∧
      ∀ a, (∃ p ∈ out.patterns, a ∈ Pattern.alternatives p) ↔ a ∈ patterns := by
  subst hout
  cases braces with
  | true => exact merge_spec hpatterns
  | false => exact glob_spec hpatterns

end Emit

end GlobPreset
