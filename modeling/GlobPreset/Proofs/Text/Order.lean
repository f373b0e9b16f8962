import Mathlib.Data.Char
import Mathlib.Data.List.Induction
import GlobPreset.Text.Basic

/-!
# Sorted lists of texts

The order of texts by code point is a linear order, so a sorted list without duplicates is
determined by its members. Most statements about results of the library, all of which are such
lists, reduce to statements about membership by this module.

## Main results

* `Text.le_total`, `Text.le_trans`, `Text.le_antisymm` — the order is linear.
* `sortBy_pairwise` — sorting by a total transitive test sorts.
* `Text.sort_eq_of_mem_iff` — sorted lists without duplicates agree if their members do.
* `dedupe_append`, `dedupe_dedupe_flatMap` — when duplicates are removed does not count.
* `mem_groupPairs` — what the groups of an association hold.
-/

set_option autoImplicit false

namespace GlobPreset

/-! ### Sorting by a test -/

section Sorting

variable {α : Type} {le : α → α → Bool}

/-- Inserting into a sorted list keeps it sorted. -/
lemma insertBy_pairwise (total : ∀ a b, le a b = true ∨ le b a = true)
    (trans : ∀ a b c, le a b = true → le b c = true → le a c = true) (a : α) :
    ∀ l : List α, l.Pairwise (fun x y => le x y = true) →
      (insertBy le a l).Pairwise (fun x y => le x y = true)
  | [], _ => by simp [insertBy]
  | b :: rest, h => by
    obtain ⟨hb, hrest⟩ := List.pairwise_cons.1 h
    unfold insertBy
    split
    · rename_i hab
      refine List.pairwise_cons.2 ⟨fun x hx => ?_, h⟩
      rcases List.mem_cons.1 hx with rfl | hx
      · exact hab
      · exact trans a b x hab (hb x hx)
    · rename_i hab
      have hba : le b a = true := (total a b).resolve_left hab
      refine List.pairwise_cons.2 ⟨fun x hx => ?_, insertBy_pairwise total trans a rest hrest⟩
      rcases List.mem_cons.1 ((insertBy_perm le a rest).mem_iff.1 hx) with rfl | hx
      · exact hba
      · exact hb x hx

/-- Sorting by a total transitive test sorts. -/
lemma sortBy_pairwise (total : ∀ a b, le a b = true ∨ le b a = true)
    (trans : ∀ a b c, le a b = true → le b c = true → le a c = true) (l : List α) :
    (sortBy le l).Pairwise (fun x y => le x y = true) := by
  induction l with
  | nil => exact List.Pairwise.nil
  | cons a rest ih => exact insertBy_pairwise total trans a _ ih

end Sorting

/-! ### The order of texts -/

namespace Text

/-- The order of texts is reflexive. -/
@[simp] lemma le_refl (s : Text) : le s s = true := by
  induction s with
  | nil => rfl
  | cons c s ih => simp [le, ih]

/-- Any two texts compare. -/
lemma le_total (s t : Text) : le s t = true ∨ le t s = true := by
  induction s generalizing t with
  | nil => exact .inl rfl
  | cons c s ih =>
    cases t with
    | nil => exact .inr rfl
    | cons d t =>
      simp only [le, Bool.or_eq_true, decide_eq_true_eq, Bool.and_eq_true, beq_iff_eq]
      rcases CodePoint.lt_trichotomy c d with h | h | h
      · exact .inl (.inl h)
      · rcases ih t with h' | h'
        · exact .inl (.inr ⟨h, h'⟩)
        · exact .inr (.inr ⟨h.symm, h'⟩)
      · exact .inr (.inl h)

/-- The order of texts is antisymmetric. -/
lemma le_antisymm {s t : Text} (h : le s t = true) (h' : le t s = true) : s = t := by
  induction s generalizing t with
  | nil =>
    cases t with
    | nil => rfl
    | cons d t => simp [le] at h'
  | cons c s ih =>
    cases t with
    | nil => simp [le] at h
    | cons d t =>
      simp only [le, Bool.or_eq_true, decide_eq_true_eq, Bool.and_eq_true, beq_iff_eq] at h h'
      rcases h with h | ⟨rfl, h⟩
      · rcases h' with h' | ⟨rfl, -⟩
        · exact absurd h' (Nat.lt_asymm h)
        · exact absurd h (CodePoint.lt_irrefl d)
      · rcases h' with h' | ⟨-, h'⟩
        · exact absurd h' (CodePoint.lt_irrefl c)
        · rw [ih h h']

/-- The order of texts is transitive. -/
lemma le_trans {s t u : Text} (h : le s t = true) (h' : le t u = true) : le s u = true := by
  induction s generalizing t u with
  | nil => rfl
  | cons c s ih =>
    cases t with
    | nil => simp [le] at h
    | cons d t =>
      cases u with
      | nil => simp [le] at h'
      | cons e u =>
        simp only [le, Bool.or_eq_true, decide_eq_true_eq, Bool.and_eq_true, beq_iff_eq] at h h' ⊢
        rcases h with h | ⟨rfl, h⟩
        · rcases h' with h' | ⟨rfl, -⟩
          · exact .inl (Nat.lt_trans h h')
          · exact .inl h
        · rcases h' with h' | ⟨rfl, h'⟩
          · exact .inl h'
          · exact .inr ⟨rfl, ih h h'⟩

/-- Texts compare behind a common start. -/
lemma le_append_left (start : Text) {s t : Text} :
    le (start ++ s) (start ++ t) = le s t := by
  induction start with
  | nil => rfl
  | cons c start ih => simp [le, ih]

/-! ### Sorted lists -/

/-- A sorted list of texts is in order. -/
lemma sort_pairwise (l : List Text) : (sort l).Pairwise (fun s t => le s t = true) :=
  sortBy_pairwise le_total (fun _ _ _ => le_trans) l

/-- Sorting keeps the members. -/
@[simp] lemma mem_sort {t : Text} {l : List Text} : t ∈ sort l ↔ t ∈ l := mem_sortBy

/-- Sorting keeps every text as often as it stands in the list. -/
lemma nodup_sort {l : List Text} : (sort l).Nodup ↔ l.Nodup := (sortBy_perm le l).nodup_iff

/-- A sorted list is given by its elements and their numbers. -/
lemma sort_eq_of_perm {l m : List Text} (h : l.Perm m) : sort l = sort m :=
  List.Perm.eq_of_pairwise (fun _ _ _ _ hab hba => le_antisymm hab hba) (sort_pairwise l)
    (sort_pairwise m) ((sortBy_perm le l).trans (h.trans (sortBy_perm le m).symm))

/-- Sorting a list that is in order changes nothing. -/
lemma sort_eq_self {l : List Text} (h : l.Pairwise (fun s t => le s t = true)) : sort l = l :=
  List.Perm.eq_of_pairwise (fun _ _ _ _ hab hba => le_antisymm hab hba) (sort_pairwise l) h
    (sortBy_perm le l)

/-- **Lists in order, without duplicates and with the same members are the same.** -/
lemma eq_of_pairwise_of_mem_iff {l m : List Text} (hl : l.Pairwise (fun s t => le s t = true))
    (hm : m.Pairwise (fun s t => le s t = true)) (hnl : l.Nodup) (hnm : m.Nodup)
    (h : ∀ t, t ∈ l ↔ t ∈ m) : l = m :=
  List.Perm.eq_of_pairwise (fun _ _ _ _ hab hba => le_antisymm hab hba) hl hm
    ((List.perm_ext_iff_of_nodup hnl hnm).2 h)

/-- Two lists without duplicates and with the same members are sorted alike. -/
lemma sort_eq_of_mem_iff {l m : List Text} (hl : l.Nodup) (hm : m.Nodup)
    (h : ∀ t, t ∈ l ↔ t ∈ m) : sort l = sort m :=
  sort_eq_of_perm ((List.perm_ext_iff_of_nodup hl hm).2 h)

end Text

/-! ### Removing duplicates and grouping -/

/-- A list without duplicates stays as it is. -/
lemma dedupe_eq_self {α : Type} [DecidableEq α] {l : List α} (h : l.Nodup) : dedupe l = l := by
  induction l with
  | nil => rfl
  | cons a rest ih =>
    obtain ⟨ha, hrest⟩ := List.nodup_cons.1 h
    rw [dedupe, ih hrest, List.filter_eq_self.2]
    intro b hb
    have hba : b ≠ a := fun e => ha (e ▸ hb)
    simpa using hba

section Dedupe

variable {α β : Type} [DecidableEq α]

/-- Behind a list, what the list holds already is dropped. -/
lemma dedupe_append (l m : List α) :
    dedupe (l ++ m) = dedupe l ++ (dedupe m).filter (fun a => decide (a ∉ l)) := by
  induction l with
  | nil => exact (List.filter_eq_self.2 fun a _ => decide_eq_true List.not_mem_nil).symm
  | cons a l ih =>
    rw [List.cons_append, dedupe, ih, List.filter_append, List.filter_filter, dedupe,
      List.cons_append]
    simp only [List.mem_cons, not_or, Bool.decide_and]

/-- What is dropped in front need not be there in the first place. -/
@[simp] lemma dedupe_dedupe_append (l m : List α) : dedupe (dedupe l ++ m) = dedupe (l ++ m) := by
  rw [dedupe_append, dedupe_append, dedupe_eq_self (nodup_dedupe l)]
  simp only [mem_dedupe]

/-- Duplicates may be dropped within the parts first. -/
lemma dedupe_flatMap_dedupe (l : List β) (f : β → List α) :
    dedupe (l.flatMap fun b => dedupe (f b)) = dedupe (l.flatMap f) := by
  induction l with
  | nil => rfl
  | cons b l ih =>
    rw [List.flatMap_cons, List.flatMap_cons, dedupe_dedupe_append, dedupe_append, ih,
      ← dedupe_append]

variable [DecidableEq β]

/-- What an element contributes may be left out where it is there already. -/
lemma filter_dedupe_flatMap_ne {f : β → List α} {b : β} (l : List β) {seen : List α}
    (h : ∀ a ∈ f b, a ∈ seen) :
    (dedupe ((l.filter fun c => decide (c ≠ b)).flatMap f)).filter (fun a => decide (a ∉ seen)) =
      (dedupe (l.flatMap f)).filter fun a => decide (a ∉ seen) := by
  induction l generalizing seen with
  | nil => rfl
  | cons c l ih =>
    have hrest := @ih (seen ++ f c) fun a ha => List.mem_append_left _ (h a ha)
    have hcut : ∀ m : List β,
        ((dedupe (m.flatMap f)).filter fun a => decide (a ∉ f c)).filter
          (fun a => decide (a ∉ seen)) =
        (dedupe (m.flatMap f)).filter fun a => decide (a ∉ seen ++ f c) := by
      intro m
      rw [List.filter_filter]
      simp only [List.mem_append, not_or, Bool.decide_and]
    rw [List.flatMap_cons, dedupe_append, List.filter_append, hcut, ← hrest]
    by_cases hc : c = b
    · -- all that `b` contributes is there already
      subst hc
      have hnone : (dedupe (f c)).filter (fun a => decide (a ∉ seen)) = [] :=
        List.filter_eq_nil_iff.2 fun a ha => by simpa using h a (mem_dedupe.1 ha)
      have hseen : ∀ a, a ∈ seen ++ f c ↔ a ∈ seen := fun a =>
        ⟨fun ha => (List.mem_append.1 ha).elim id (h a), List.mem_append_left _⟩
      rw [hnone, List.nil_append, List.filter_cons_of_neg (by simp)]
      simp only [hseen]
    · rw [List.filter_cons_of_pos (by simpa using hc), List.flatMap_cons, dedupe_append,
        List.filter_append, hcut]

/-- Repeated elements contribute nothing new. -/
lemma dedupe_dedupe_flatMap (l : List β) (f : β → List α) :
    dedupe ((dedupe l).flatMap f) = dedupe (l.flatMap f) := by
  induction l with
  | nil => rfl
  | cons b l ih =>
    rw [dedupe, List.flatMap_cons, List.flatMap_cons, dedupe_append, dedupe_append,
      filter_dedupe_flatMap_ne _ fun _ => id, ih]

/-- An injective map keeps duplicates and makes none. -/
lemma dedupe_map {f : β → α} (hf : Function.Injective f) (l : List β) :
    dedupe (l.map f) = (dedupe l).map f := by
  induction l with
  | nil => rfl
  | cons b l ih =>
    rw [List.map_cons, dedupe, dedupe, List.map_cons, ih, List.filter_map]
    simp only [Function.comp_def, ne_eq, hf.eq_iff]

end Dedupe

section Groups

variable {α β : Type} [DecidableEq α]

/-- The values that a list of pairs gives to a key, in order. -/
def valuesOf (key : α) (pairs : List (α × β)) : List β :=
  (pairs.filter (fun p => decide (p.1 = key))).map Prod.snd

/-- The values of a key are those that it is paired with. -/
lemma mem_valuesOf {key : α} {b : β} {pairs : List (α × β)} :
    b ∈ valuesOf key pairs ↔ (key, b) ∈ pairs := by
  simp only [valuesOf, List.mem_map, List.mem_filter, decide_eq_true_eq]
  constructor
  · rintro ⟨⟨k, x⟩, ⟨hmem, rfl⟩, rfl⟩
    exact hmem
  · exact fun h => ⟨(key, b), ⟨h, rfl⟩, rfl⟩

/-- One more pair adds its value to those of its key. -/
lemma valuesOf_concat (key : α) (pairs : List (α × β)) (p : α × β) :
    valuesOf key (pairs ++ [p]) = valuesOf key pairs ++ if p.1 = key then [p.2] else [] := by
  by_cases h : p.1 = key <;> simp [valuesOf, List.filter_append, h]

/-- The values of a key after one is added. -/
lemma lookup?_addToGroup (key : α) (b : β) (k : α) :
    ∀ groups : List (α × List β),
      lookup? k (addToGroup key b groups) =
        if k = key then some ((lookup? key groups).getD [] ++ [b]) else lookup? k groups
  | [] => by
    by_cases h : k = key
    · simp [addToGroup, lookup?, h]
    · simp [addToGroup, lookup?, h, Ne.symm h]
  | (l, bs) :: rest => by
    have ih := lookup?_addToGroup key b k rest
    by_cases hl : l = key
    · subst hl
      by_cases h : k = l
      · simp [addToGroup, lookup?, h]
      · simp [addToGroup, lookup?, h, Ne.symm h]
    · by_cases h : k = key
      · subst h
        simpa [addToGroup, lookup?, hl] using ih
      · simpa [addToGroup, lookup?, hl, h] using congrArg (if l = k then some bs else ·) ih

/-- Adding a value adds its key behind the others, unless it is there. -/
lemma keys_addToGroup (key : α) (b : β) :
    ∀ groups : List (α × List β),
      (addToGroup key b groups).map Prod.fst =
        if key ∈ groups.map Prod.fst then groups.map Prod.fst
        else groups.map Prod.fst ++ [key]
  | [] => by simp [addToGroup]
  | (l, bs) :: rest => by
    have ih := keys_addToGroup key b rest
    by_cases hl : l = key
    · simp [addToGroup, hl]
    · rw [addToGroup, if_neg hl, List.map_cons, ih]
      by_cases hmem : key ∈ rest.map Prod.fst
      · rw [if_pos hmem, if_pos (by simp only [List.map_cons]; exact List.mem_cons_of_mem l hmem)]
        rfl
      · have hne : key ∉ ((l, bs) :: rest).map Prod.fst := by
          rw [List.map_cons, List.mem_cons]
          rintro (h | h)
          · exact hl h.symm
          · exact hmem h
        rw [if_neg hmem, if_neg hne]
        rfl

/-- One more pair is added to the group of its key. -/
lemma groupPairs_concat (pairs : List (α × β)) (p : α × β) :
    groupPairs (pairs ++ [p]) = addToGroup p.1 p.2 (groupPairs pairs) := by
  simp [groupPairs]

/-- Every key has one group. -/
lemma nodup_keys_groupPairs (pairs : List (α × β)) :
    ((groupPairs pairs).map Prod.fst).Nodup := by
  induction pairs using List.reverseRecOn with
  | nil => exact List.nodup_nil
  | append_singleton pairs p ih =>
    rw [groupPairs_concat, keys_addToGroup]
    split
    · exact ih
    · rename_i h
      exact List.nodup_append.2 ⟨ih, by simp, by
        intro a ha b hb
        rw [List.mem_singleton.1 hb]
        exact fun e => h (e ▸ ha)⟩

/-- The group of a key holds its values, and a key without values has none. -/
lemma lookup?_groupPairs (k : α) (pairs : List (α × β)) :
    lookup? k (groupPairs pairs) =
      if valuesOf k pairs = [] then none else some (valuesOf k pairs) := by
  induction pairs using List.reverseRecOn with
  | nil => rfl
  | append_singleton pairs p ih =>
    rw [groupPairs_concat, lookup?_addToGroup, valuesOf_concat]
    by_cases h : k = p.1
    · subst h
      by_cases hv : valuesOf p.1 pairs = [] <;> simp [ih, hv]
    · simp [ih, h, Ne.symm h]

/-- In an association list without repeated keys, what is looked up is what is there. -/
lemma lookup?_eq_some_iff {k : α} {b : β} :
    ∀ {pairs : List (α × β)}, (pairs.map Prod.fst).Nodup →
      (lookup? k pairs = some b ↔ (k, b) ∈ pairs)
  | [], _ => by simp [lookup?]
  | (l, c) :: rest, hnd => by
    rw [List.map_cons, List.nodup_cons] at hnd
    have ih := @lookup?_eq_some_iff k b rest hnd.2
    by_cases hl : l = k
    · subst hl
      have hno : (l, b) ∉ rest := fun h => hnd.1 (List.mem_map.2 ⟨(l, b), h, rfl⟩)
      simp [lookup?, hno, eq_comm]
    · simp [lookup?, hl, Ne.symm hl, ih]

/-- **Grouping values by their key** gives each key that has values a group of all of them. -/
lemma mem_groupPairs {k : α} {bs : List β} {pairs : List (α × β)} :
    (k, bs) ∈ groupPairs pairs ↔ bs = valuesOf k pairs ∧ bs ≠ [] := by
  rw [← lookup?_eq_some_iff (nodup_keys_groupPairs pairs), lookup?_groupPairs]
  split
  · rename_i h
    simp [h]
  · rename_i h
    rw [Option.some.injEq]
    constructor
    · rintro rfl
      exact ⟨rfl, h⟩
    · exact fun h => h.1.symm

end Groups

end GlobPreset
