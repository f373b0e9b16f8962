import GlobPreset.Expand
import GlobPreset.Proofs.Pattern.Matching
import GlobPreset.Proofs.Text.Order

/-!
# What an expansion gives

Grouping the alternatives by their literal base, walking once for a group and matching with all
patterns of a group at once comes to the same as looking at the alternatives one by one: a file is
given if some included alternative matches it and the walk from the base of that alternative finds
it, and if no excluded alternative matches it.

## Main definitions

* `PatternList.Selects` — the file is one that the alternatives ask for, one by one.
* `PatternList.IsReadable` — the list is safe, and its alternatives are selecting patterns.

## Main results

* `PatternList.checkSafe_eq_ok` — a list is safe if every reading of its patterns is.
* `Expand.outcome_eq_ok` — the expansion of a readable list.
* `Expand.outcome_eq_sort` — an expansion that gives the members of a given list.
-/

set_option autoImplicit false

namespace GlobPreset

/-- **A list is safe if every reading of its patterns is.** -/
theorem PatternList.checkSafe_eq_ok {list : PatternList} :
    list.checkSafe = .ok () ↔
      ∀ p ∈ list.includes ++ list.excludes, ∀ r ∈ Pattern.readings p,
        Path.unsafeCause? r = none := by
  have hnone : Pattern.firstUnsafe? (list.includes ++ list.excludes) = none ↔
      ∀ p ∈ list.includes ++ list.excludes, ∀ r ∈ Pattern.readings p,
        Path.unsafeCause? r = none := by
    simp only [Pattern.firstUnsafe?, List.findSome?_eq_none_iff, List.mem_flatMap,
      Pattern.refusal?, Option.map_eq_none_iff, forall_exists_index, and_imp]
    exact ⟨fun h p hp r hr => h r p hp hr, fun h r p hp hr => h p hp r hr⟩
  rw [← hnone, checkSafe, Pattern.checkAllSafe]
  cases Pattern.firstUnsafe? (list.includes ++ list.excludes) <;> simp

/-- A list is safe, and its alternatives are selecting patterns, as far as a case policy tells. -/
structure PatternList.IsReadable (list : PatternList) (policy : CasePolicy) : Prop where
  /-- It is safe. -/
  safe : list.checkSafe = .ok ()
  /-- The alternatives of its patterns can be read, and none starts with an exclusion mark. -/
  selecting : ∀ p ∈ list.includes ++ list.excludes, ∀ a ∈ Pattern.alternatives p,
    Pattern.IsSelecting (policy.key a)

/-- Whether a list can be read is a matter of each of its patterns. -/
lemma PatternList.isReadable_iff {list : PatternList} {policy : CasePolicy} :
    list.IsReadable policy ↔ ∀ p ∈ list.includes ++ list.excludes,
      (∀ r ∈ Pattern.readings p, Path.unsafeCause? r = none) ∧
        ∀ a ∈ Pattern.alternatives p, Pattern.IsSelecting (policy.key a) :=
  ⟨fun h p hp => ⟨checkSafe_eq_ok.1 h.safe p hp, h.selecting p hp⟩,
    fun h => ⟨checkSafe_eq_ok.2 fun p hp => (h p hp).1, fun p hp => (h p hp).2⟩⟩

/-- An included alternative matches the file, and the walk from its base finds the file; no excluded
alternative matches it. What matches is told by a case policy. -/
def PatternList.Selects (list : PatternList) (policy : CasePolicy) (fs : FileSystem) (root : Text)
    (ignore : IgnoreRules) (f : Text) : Prop :=
  (∃ p ∈ list.includes, ∃ a ∈ Pattern.alternatives p, Pattern.findsBy policy a f = true ∧
    f ∈ Walk.files fs ignore root (Pattern.literalBase a)) ∧
  ∀ p ∈ list.excludes, ∀ a ∈ Pattern.alternatives p, Pattern.findsBy policy a f = false

/-- What a list selects depends on its plain patterns alone. -/
lemma PatternList.selects_congr {list list' : PatternList}
    (hincludes : ∀ a, (∃ p ∈ list.includes, a ∈ Pattern.alternatives p) ↔
      ∃ p ∈ list'.includes, a ∈ Pattern.alternatives p)
    (hexcludes : ∀ x, x ∈ list.excludes ↔ x ∈ list'.excludes) (policy : CasePolicy)
    (fs : FileSystem) (root : Text) (ignore : IgnoreRules) (f : Text) :
    list.Selects policy fs root ignore f ↔ list'.Selects policy fs root ignore f := by
  have hfirst : ∀ l : PatternList, l.Selects policy fs root ignore f ↔
      (∃ a, (∃ p ∈ l.includes, a ∈ Pattern.alternatives p) ∧ Pattern.findsBy policy a f = true ∧
        f ∈ Walk.files fs ignore root (Pattern.literalBase a)) ∧
      ∀ x ∈ l.excludes, ∀ a ∈ Pattern.alternatives x, Pattern.findsBy policy a f = false := by
    intro l
    refine and_congr_left fun _ => ⟨?_, ?_⟩
    · rintro ⟨p, hp, a, ha, hfind⟩
      exact ⟨a, ⟨p, hp, ha⟩, hfind⟩
    · rintro ⟨a, ⟨p, hp, ha⟩, hfind⟩
      exact ⟨p, hp, a, ha, hfind⟩
  rw [hfirst, hfirst]
  simp only [hincludes, hexcludes]

namespace Expand

variable {fs : FileSystem} {root : Text} {ignore : IgnoreRules} {policy : CasePolicy}

/-- The files of a group of selecting patterns. -/
lemma groupFiles_eq_ok {g : Group} (h : ∀ a ∈ g.2, Pattern.IsSelecting (policy.key a)) :
    ∃ files, groupFiles fs root ignore policy g = .ok files ∧
      ∀ f, f ∈ files ↔
        f ∈ Walk.files fs ignore root g.1 ∧ ∃ a ∈ g.2, Pattern.findsBy policy a f = true := by
  obtain ⟨m, hm, hacc⟩ := Matcher.ofPatterns_eq_ok h
  refine ⟨(Walk.files fs ignore root g.1).filter m.accepts, by rw [groupFiles, hm]; rfl,
    fun f => ?_⟩
  rw [List.mem_filter, hacc, List.any_eq_true]

/-- The files of several groups of selecting patterns. -/
lemma mapM_groupFiles {gs : List Group}
    (h : ∀ g ∈ gs, ∀ a ∈ g.2, Pattern.IsSelecting (policy.key a)) :
    ∃ found, gs.mapM (groupFiles fs root ignore policy) = .ok found ∧
      ∀ f, f ∈ found.flatten ↔ ∃ g ∈ gs,
        f ∈ Walk.files fs ignore root g.1 ∧ ∃ a ∈ g.2, Pattern.findsBy policy a f = true := by
  induction gs with
  | nil => exact ⟨[], rfl, by simp⟩
  | cons g gs ih =>
    obtain ⟨files, hfiles, hmem⟩ := groupFiles_eq_ok (h g List.mem_cons_self)
    obtain ⟨found, hfound, hrest⟩ := ih fun g' hg' => h g' (List.mem_cons_of_mem _ hg')
    refine ⟨files :: found, ?_, fun f => ?_⟩
    · rw [List.mapM_cons, hfiles, hfound]
      rfl
    · rw [List.flatten_cons, List.mem_append, hmem, hrest, List.exists_mem_cons_iff]

/-- The groups hold the alternatives, each under its base. -/
lemma mem_groups {patterns : List Text} {base a : Text} :
    (∃ g ∈ groups patterns, g.1 = base ∧ a ∈ g.2) ↔
      (∃ p ∈ patterns, a ∈ Pattern.alternatives p) ∧ Pattern.literalBase a = base := by
  have hpairs : (base, a) ∈ (patterns.flatMap Pattern.alternatives).map
      (fun a => (Pattern.literalBase a, a)) ↔
        (∃ p ∈ patterns, a ∈ Pattern.alternatives p) ∧ Pattern.literalBase a = base := by
    simp only [List.mem_map, List.mem_flatMap, Prod.mk.injEq]
    constructor
    · rintro ⟨x, hx, hb, rfl⟩
      exact ⟨hx, hb⟩
    · rintro ⟨hx, hb⟩
      exact ⟨a, hx, hb, rfl⟩
  rw [← hpairs, ← mem_valuesOf]
  constructor
  · rintro ⟨⟨k, bs⟩, hg, rfl, ha⟩
    rwa [(mem_groupPairs.1 hg).1] at ha
  · intro ha
    exact ⟨(base, valuesOf base _), mem_groupPairs.2 ⟨rfl, List.ne_nil_of_mem ha⟩, rfl, ha⟩

/-- Taking away what excluded selecting patterns match. -/
lemma withoutExcluded_eq_ok {excludes : List Text}
    (h : ∀ p ∈ excludes, ∀ a ∈ Pattern.alternatives p, Pattern.IsSelecting (policy.key a))
    (files : List Text) :
    ∃ kept, withoutExcluded policy excludes files = .ok kept ∧ kept.Sublist files ∧
      ∀ f, f ∈ kept ↔ f ∈ files ∧
        ∀ p ∈ excludes, ∀ a ∈ Pattern.alternatives p, Pattern.findsBy policy a f = false := by
  unfold withoutExcluded
  by_cases hnil : excludes = []
  · subst hnil
    exact ⟨files, rfl, List.Sublist.refl _, by simp⟩
  · have hsel : ∀ a ∈ excludes.flatMap Pattern.alternatives,
        Pattern.IsSelecting (policy.key a) := by
      intro a ha
      obtain ⟨p, hp, hap⟩ := List.mem_flatMap.1 ha
      exact h p hp a hap
    obtain ⟨m, hm, hacc⟩ := Matcher.ofPatterns_eq_ok hsel
    have hfull : excludes.isEmpty = false := by simpa using hnil
    refine ⟨files.filter (fun f => !m.accepts f), ?_, List.filter_sublist, fun f => ?_⟩
    · rw [hfull, Matcher.ofBracedList, hm]
      rfl
    · rw [List.mem_filter, hacc, Bool.not_eq_true', List.any_eq_false]
      simp only [List.mem_flatMap, forall_exists_index, and_imp, Bool.not_eq_true]
      exact and_congr_right fun _ =>
        ⟨fun h' p hp a ha => h' a p hp ha, fun h' a p hp ha => h' p hp a ha⟩

/-- **The expansion of a readable list** gives the files that its alternatives ask for, one by one:
in order, each once. -/
theorem outcome_eq_ok {context : Context} {list : PatternList}
    (hignore : context.ignoreRules = .ok ignore) (hlist : list.IsReadable context.policy) :
    ∃ files, outcome fs root context list = .ok files ∧
      files.Pairwise (fun s t => Text.le s t = true) ∧ files.Nodup ∧
      ∀ f, f ∈ files ↔ list.Selects context.policy fs root ignore f := by
  have hinc : ∀ g ∈ groups list.includes, ∀ a ∈ g.2,
      Pattern.IsSelecting (context.policy.key a) := by
    intro g hg a ha
    obtain ⟨⟨p, hp, hap⟩, -⟩ := mem_groups.1 ⟨g, hg, rfl, ha⟩
    exact hlist.selecting p (List.mem_append_left _ hp) a hap
  obtain ⟨found, hfound, hmem⟩ :=
    @mapM_groupFiles fs root ignore context.policy (groups list.includes) hinc
  obtain ⟨kept, hkept, hsub, hkeptmem⟩ := withoutExcluded_eq_ok
    (fun p hp => hlist.selecting p (List.mem_append_right _ hp)) (dedupe found.flatten)
  have hselects : ∀ f, f ∈ kept ↔ list.Selects context.policy fs root ignore f := by
    intro f
    rw [hkeptmem, mem_dedupe, hmem, PatternList.Selects]
    refine and_congr_left fun _ => ?_
    constructor
    · rintro ⟨g, hg, hwalk, a, ha, hfind⟩
      obtain ⟨⟨p, hp, hap⟩, hbase⟩ := mem_groups.1 ⟨g, hg, rfl, ha⟩
      exact ⟨p, hp, a, hap, hfind, hbase ▸ hwalk⟩
    · rintro ⟨p, hp, a, ha, hfind, hwalk⟩
      obtain ⟨g, hg, hbase, hag⟩ := mem_groups.2 ⟨⟨p, hp, ha⟩, rfl⟩
      exact ⟨g, hg, hbase ▸ hwalk, a, hag, hfind⟩
  by_cases hnil : list.includes = []
  · refine ⟨[], ?_, List.Pairwise.nil, List.nodup_nil, fun f => ?_⟩
    · unfold outcome
      simp [hlist.safe, hnil, Except.mapError, bind, Except.bind, pure, Except.pure]
    · rw [← hselects, hkeptmem, mem_dedupe, hmem]
      simp [groups, groupPairs, hnil]
  · refine ⟨Text.sort kept, ?_, Text.sort_pairwise _,
      Text.nodup_sort.2 (hsub.nodup (nodup_dedupe _)),
      fun f => Text.mem_sort.trans (hselects f)⟩
    unfold outcome
    simp [hlist.safe, hnil, hignore, hfound, hkept, Except.mapError, bind, Except.bind, pure,
      Except.pure]

/-- An expansion gives the members of a list if these are what its alternatives ask for. -/
lemma outcome_eq_sort {context : Context} {list : PatternList} {selection : List Text}
    (hignore : context.ignoreRules = .ok ignore) (hlist : list.IsReadable context.policy)
    (h : ∀ f, list.Selects context.policy fs root ignore f ↔ f ∈ selection) :
    outcome fs root context list = .ok (Text.sort (dedupe selection)) := by
  obtain ⟨files, hout, hsorted, hnodup, hmem⟩ :=
    @outcome_eq_ok fs root ignore context list hignore hlist
  rw [hout, ← Text.sort_eq_self hsorted, Text.sort_eq_of_mem_iff hnodup (nodup_dedupe _)]
  intro f
  rw [hmem, h, mem_dedupe]

end Expand

end GlobPreset
