import GlobPreset.Proofs.Expansion.Outcome
import GlobPreset.Proofs.FileSystem.Unlinked
import GlobPreset.Proofs.Pattern.Base

/-!
# The declarative meaning of an expansion

In a tree without linked or unreadable directories, an expansion is a filter of all files: a file is
given if some included alternative matches it, no ignored name stands between the literal base of
that alternative and the file, and no excluded alternative matches it. Walking from the literal
bases alone loses no match, except of a file whose name ends with a line feed.

## Main definitions

* `Pattern.Matches` — the matcher of one plain pattern accepts a path.
* `PatternList.IsTidy` — a safe list of which every alternative is tidy and can be read.
* `PatternList.Filters` — the filter that a list stands for.

## Main results

* `Expand.outcome_eq_filter` — an expansion is a filter, and no match lies elsewhere.
* `Expand.not_all_matches_at_base` — a match whose name ends with a line feed lies elsewhere.
-/

set_option autoImplicit false

namespace GlobPreset

open GlobPreset.Path

/-! ### Matches of one pattern -/

namespace Pattern

/-- The matcher of one plain pattern accepts the path. -/
def Matches (pattern path : Text) : Prop :=
  ∃ m, Matcher.ofPatterns .sensitive [pattern] = .ok m ∧ m.accepts path = true

/-- A pattern that has a matcher and no exclusion mark in front is a selecting one. -/
lemma isSelecting_of_matcher {pattern : Text} (hmark : pattern.head? ≠ some (.of '!'))
    (h : ∃ m, Matcher.ofPatterns .sensitive [pattern] = .ok m) : IsSelecting pattern := by
  obtain ⟨m, hm⟩ := h
  exact ⟨hmark, Matcher.readable_of_ofPatterns hm (List.mem_singleton_self pattern)⟩

/-- A selecting pattern matches what its line finds. -/
lemma matches_iff {pattern path : Text} (h : IsSelecting pattern) :
    Matches pattern path ↔ finds pattern path = true := by
  have hall : ∀ p ∈ [pattern], IsSelecting p := by
    intro p hp
    rw [List.mem_singleton.1 hp]
    exact h
  obtain ⟨m, hm, hacc⟩ := @Matcher.ofPatterns_eq_ok .sensitive _ hall
  have hval : m.accepts path = finds pattern path := by
    rw [hacc]
    simp
  constructor
  · rintro ⟨m', hm', hacc'⟩
    rw [hm] at hm'
    cases hm'
    rw [← hval]
    exact hacc'
  · intro hfind
    exact ⟨m, hm, hval.trans hfind⟩

/-- **What a tidy pattern matches lies at or below its base**, if it does not end with a line
feed. -/
theorem eq_or_below_of_finds {pattern : Text} (h : IsTidy pattern) {names : List Text}
    (hn : AreNames names) (hfind : finds pattern (ofSegments names) = true)
    (hfeed : (ofSegments names).getLast? ≠ some (.of '\n')) :
    ofSegments names = literalBase pattern ∨
      ∃ rel, ofSegments names = join (literalBase pattern) rel := by
  by_cases hrun : literalRun pattern = []
  · refine .inr ⟨ofSegments names, ?_⟩
    rw [literalBase_eq, hrun]
    rfl
  obtain ⟨hdan, behind, hpath, hgoes, -⟩ := finds_literalRun h hrun hfind
  have hplain : Wildmatch.RuleSet.plainPath (ofSegments names) = ofSegments names := by
    by_cases hne : names = []
    · rw [hne]
      rfl
    · exact plainPath_of_isPlain (isPlain_ofSegments hne hn)
  rw [hplain] at hpath
  rcases hgoes with rfl | hslash | rfl
  · exact .inl (hpath.trans (List.append_nil _))
  · obtain ⟨rel, rfl⟩ : ∃ rel, behind = .of '/' :: rel := by
      cases behind with
      | nil => cases hslash
      | cons c rel =>
        obtain rfl : c = .of '/' := by simpa using hslash
        exact ⟨rel, rfl⟩
    refine .inr ⟨rel, ?_⟩
    have hbase : (literalBase pattern).isEmpty = false := by
      obtain ⟨s, rest, hcons⟩ := List.exists_cons_of_ne_nil hrun
      have hs := literalRun_spec (hcons ▸ List.mem_cons_self : s ∈ literalRun pattern)
      have hsdan := hdan s (hcons ▸ List.mem_cons_self)
      rw [List.isEmpty_eq_false_iff, literalBase_eq, hcons, List.map_cons]
      intro hnil
      by_cases hrest : rest.map unescape = []
      · rw [hrest] at hnil
        exact unescape_ne_nil hs.1 hsdan hnil
      · rw [ofSegments_cons _ hrest] at hnil
        cases List.append_eq_nil_iff.1 hnil |>.2
    rw [hpath, join, hbase]
    rfl
  · rw [hpath, List.getLast?_concat] at hfeed
    exact absurd rfl hfeed

end Pattern

/-! ### Lists -/

/-- A safe list of which every alternative is tidy and can be read. -/
structure PatternList.IsTidy (list : PatternList) : Prop where
  /-- The list is safe. -/
  safe : list.checkSafe = .ok ()
  /-- Every alternative is tidy. -/
  tidy : ∀ p ∈ list.includes ++ list.excludes, ∀ a ∈ Pattern.alternatives p, Pattern.IsTidy a
  /-- Every alternative has a matcher. -/
  compiles : ∀ p ∈ list.includes ++ list.excludes, ∀ a ∈ Pattern.alternatives p,
    ∃ m, Matcher.ofPatterns .sensitive [a] = .ok m

instance (list : PatternList) : Decidable list.IsTidy :=
  decidable_of_iff
    (list.checkSafe = .ok () ∧
      ∀ p ∈ list.includes ++ list.excludes, ∀ a ∈ Pattern.alternatives p,
        Pattern.IsTidy a ∧ (Matcher.ofPatterns .sensitive [a]).toOption.isSome = true)
    (by
      constructor
      · rintro ⟨hsafe, h⟩
        refine ⟨hsafe, fun p hp a ha => (h p hp a ha).1, fun p hp a ha => ?_⟩
        have hsome := (h p hp a ha).2
        cases hm : Matcher.ofPatterns .sensitive [a] with
        | error e => rw [hm] at hsome; cases hsome
        | ok m => exact ⟨m, rfl⟩
      · intro h
        refine ⟨h.safe, fun p hp a ha => ⟨h.tidy p hp a ha, ?_⟩⟩
        obtain ⟨m, hm⟩ := h.compiles p hp a ha
        rw [hm]
        rfl)

/-- The filter that a list stands for: some included alternative matches the file, and no ignored
name stands between its base and the file; no excluded alternative matches the file. -/
def PatternList.Filters (list : PatternList) (ignore : IgnoreRules) (f : Text) : Prop :=
  (∃ p ∈ list.includes, ∃ a ∈ Pattern.alternatives p, Pattern.Matches a f ∧
    (f = Pattern.literalBase a ∨
      ∃ rel, f = join (Pattern.literalBase a) rel ∧ ignore.crosses rel true = false)) ∧
  ∀ p ∈ list.excludes, ∀ a ∈ Pattern.alternatives p, ¬ Pattern.Matches a f

namespace Expand

variable {t : MemoryTree} {ignore : IgnoreRules} {list : PatternList}

/-- A tidy list is readable. -/
lemma isReadable_of_isTidy (h : list.IsTidy) : list.IsReadable .sensitive :=
  ⟨h.safe, fun p hp a ha =>
    Pattern.isSelecting_of_matcher (h.tidy p hp a ha).unmarked (h.compiles p hp a ha)⟩

/-- In an unlinked tree, what the alternatives of a tidy list ask for is what the list filters. -/
lemma selects_iff_filters (ht : t.WellFormed) (hu : t.IsUnlinked) (hlist : list.IsTidy)
    (f : Text) :
    list.Selects .sensitive t.fileSystem t.root.toText ignore f ↔
      t.fileSystem.HasFile t.root.toText f ∧ list.Filters ignore f := by
  have hread := isReadable_of_isTidy hlist
  have hmatch : ∀ p ∈ list.includes ++ list.excludes, ∀ a ∈ Pattern.alternatives p,
      (Pattern.Matches a f ↔ Pattern.finds a f = true) :=
    fun p hp a ha => Pattern.matches_iff (hread.selecting p hp a ha)
  -- the walk from the base of an alternative that matches the file
  have hwalk : ∀ p ∈ list.includes ++ list.excludes, ∀ a ∈ Pattern.alternatives p,
      Pattern.finds a f = true →
      (f ∈ Walk.files t.fileSystem ignore t.root.toText (Pattern.literalBase a) ↔
        t.fileSystem.HasFile t.root.toText f ∧ (f = Pattern.literalBase a ∨
          ∃ rel, f = join (Pattern.literalBase a) rel ∧ ignore.crosses rel true = false)) := by
    intro p hp a ha hfind
    have hsafe : unsafeCause? (Pattern.literalBase a) = none := by
      refine PatternList.checkSafe_eq_ok.1 hlist.safe p hp _ ?_
      exact List.mem_cons_of_mem _ (List.mem_flatMap.2 ⟨a, ha, by simp⟩)
    have hbase := Pattern.areNames_literalRun (hlist.tidy p hp a ha) hsafe hfind
    rw [Pattern.literalBase_eq]
    exact hu.mem_walk ht hbase f
  have hex : (∀ p ∈ list.excludes, ∀ a ∈ Pattern.alternatives p, Pattern.finds a f = false) ↔
      ∀ p ∈ list.excludes, ∀ a ∈ Pattern.alternatives p, ¬ Pattern.Matches a f := by
    refine forall₂_congr fun p hp => forall₂_congr fun a ha => ?_
    rw [hmatch p (List.mem_append_right _ hp) a ha, Bool.not_eq_true]
  simp only [PatternList.Selects, Pattern.findsBy_sensitive]
  rw [PatternList.Filters, hex]
  constructor
  · rintro ⟨⟨p, hp, a, ha, hfind, hmem⟩, hkeep⟩
    have hp' := List.mem_append_left list.excludes hp
    obtain ⟨hf, hpos⟩ := (hwalk p hp' a ha hfind).1 hmem
    exact ⟨hf, ⟨p, hp, a, ha, (hmatch p hp' a ha).2 hfind, hpos⟩, hkeep⟩
  · rintro ⟨hf, ⟨p, hp, a, ha, hm, hpos⟩, hkeep⟩
    have hp' := List.mem_append_left list.excludes hp
    have hfind := (hmatch p hp' a ha).1 hm
    exact ⟨⟨p, hp, a, ha, hfind, (hwalk p hp' a ha hfind).2 ⟨hf, hpos⟩⟩, hkeep⟩

/-- **An expansion is a filter.** In a tree without linked or unreadable directories, the expansion
of a tidy list gives, in order and each once, the files of the tree that the list filters. Moreover
a file that an alternative matches is the base of the alternative or lies below it, unless its path
ends with a line feed. -/
theorem outcome_eq_filter (ht : t.WellFormed) (hu : t.IsUnlinked) {context : Context}
    (hpolicy : context.policy = .sensitive) (hignore : context.ignoreRules = .ok ignore)
    (hlist : list.IsTidy) :
    (∃ files, outcome t.fileSystem t.root.toText context list = .ok files ∧
      files.Pairwise (fun f g => Text.le f g = true) ∧ files.Nodup ∧
      ∀ f, f ∈ files ↔ t.fileSystem.HasFile t.root.toText f ∧ list.Filters ignore f) ∧
    ∀ p ∈ list.includes ++ list.excludes, ∀ a ∈ Pattern.alternatives p, ∀ f,
      t.fileSystem.HasFile t.root.toText f → Pattern.Matches a f → f.getLast? ≠ some (.of '\n') →
      f = Pattern.literalBase a ∨ ∃ rel, f = join (Pattern.literalBase a) rel := by
  refine ⟨?_, fun p hp a ha f hf hm hfeed => ?_⟩
  · obtain ⟨files, hout, hsorted, hnodup, hmem⟩ :=
      @outcome_eq_ok t.fileSystem t.root.toText ignore context list hignore
        (hpolicy ▸ isReadable_of_isTidy hlist)
    rw [hpolicy] at hmem
    exact ⟨files, hout, hsorted, hnodup,
      fun f => (hmem f).trans (selects_iff_filters ht hu hlist f)⟩
  · have hsel := (isReadable_of_isTidy hlist).selecting p hp a ha
    have hfind := (Pattern.matches_iff hsel).1 hm
    rw [← ofSegments_segments f] at hfind hfeed ⊢
    exact Pattern.eq_or_below_of_finds (hlist.tidy p hp a ha) hf.1 hfind hfeed

/-- A tree with a source file and a link to it, an ignored directory, and a file whose name ends
with a line feed. -/
def sampleTree : MemoryTree :=
  .build [.of '/', .of 'p'] [.file [.of 's', .of '/', .of 'a', .of '.', .of 't'] [],
    .link [.of 's', .of '/', .of 'l', .of '.', .of 't'] [.of 'a', .of '.', .of 't'],
    .file [.of 's', .of '/', .of 'o', .of '/', .of 'b', .of '.', .of 't'] [],
    .file [.of 'a', .of '\n'] []]

/-- A context that leaves out one directory name. -/
def sampleContext : Context :=
  { Context.standard with ignoredDirectories := [[.of 'o']], ignoredFiles := [] }

/-- A list with braces and an exclusion. -/
def sampleList : PatternList :=
  ⟨[[.of '{', .of 'a', .of ',', .of 's', .of '/', .of '*', .of '*', .of '}']],
    [[.of 's', .of '/', .of 'l', .of '.', .of '*']]⟩

/-- The sample tree is well-formed. -/
lemma wellFormed_sampleTree : sampleTree.WellFormed :=
  MemoryTree.wellFormed_build rfl _ (by decide)

/-- The sample tree has no links. -/
lemma isUnlinked_sampleTree : sampleTree.IsUnlinked := ⟨by decide, by decide⟩

/-- The sample list is tidy. -/
lemma isTidy_sampleList : sampleList.IsTidy := by decide

/-- The expansion of the sample list in the sample tree is a filter of its files. -/
theorem outcome_sampleList :
    ∃ files, outcome sampleTree.fileSystem sampleTree.root.toText sampleContext sampleList =
        .ok files ∧
      ∀ f, f ∈ files ↔ sampleTree.fileSystem.HasFile sampleTree.root.toText f ∧
        sampleList.Filters ⟨[[.of 'o']], ⟨[]⟩⟩ f := by
  have hignore : sampleContext.ignoreRules = .ok ⟨[[.of 'o']], ⟨[]⟩⟩ := rfl
  obtain ⟨⟨files, hout, -, -, hmem⟩, -⟩ :=
    outcome_eq_filter wellFormed_sampleTree isUnlinked_sampleTree rfl hignore isTidy_sampleList
  exact ⟨files, hout, hmem⟩

/-- **A match may lie elsewhere** than at or below the base: a file whose path ends with a line
feed. -/
theorem not_all_matches_at_base :
    ¬ ∀ (t : MemoryTree) (list : PatternList), t.WellFormed → t.IsUnlinked → list.IsTidy →
      ∀ p ∈ list.includes ++ list.excludes, ∀ a ∈ Pattern.alternatives p, ∀ f,
        t.fileSystem.HasFile t.root.toText f → Pattern.Matches a f →
        f = Pattern.literalBase a ∨ ∃ rel, f = join (Pattern.literalBase a) rel := by
  intro hall
  have hfile : sampleTree.fileSystem.HasFile sampleTree.root.toText [.of 'a', .of '\n'] := by
    have hn : AreNames [[.of 'a', .of '\n']] :=
      areNames_singleton ⟨by decide, by decide, by decide, by decide⟩
    exact (FileSystem.hasFile_ofSegments (List.cons_ne_nil _ _) hn).2 (by decide)
  have hmatch : Pattern.Matches [.of 'a'] [.of 'a', .of '\n'] := ⟨_, rfl, by decide⟩
  have hbase : Pattern.literalBase [.of 'a'] = [.of 'a'] := by decide
  rcases hall sampleTree sampleList wellFormed_sampleTree isUnlinked_sampleTree isTidy_sampleList
    _ (List.mem_cons_self) [.of 'a'] (by decide) _ hfile hmatch with h | ⟨rel, h⟩
  · rw [hbase] at h
    exact absurd h (by decide)
  · rw [hbase] at h
    cases h

end Expand

end GlobPreset
