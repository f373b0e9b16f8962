import GlobPreset.Proofs.Emit.Eliminate
import GlobPreset.Proofs.Expansion.Declarative
import GlobPreset.Proofs.Pattern.DirectoryGlob

/-!
# Redundant patterns make no difference

Leaving redundant patterns out of a list does not change its expansion. A pattern is left out if
each of its alternatives lies below a kept directory, and then the pattern of that directory selects
whatever the alternative selects: no ignored name stands between the two.

## Main definitions

* `PatternList.IsReducible` — a tidy list of which no included alternative has an empty segment, or
  names a directory unless it has a wildcard.

## Main results

* `Eliminate.Kept.coversAlternative_iff` — when every match of an alternative lies below a kept
  directory.
* `Expand.exists_below_of_covered` — what a covered alternative selects is reached from above.
* `Expand.outcome_eliminateRedundant` — **the expansion stays the same**.
* `Expand.not_outcome_eliminateRedundant` — a directory pattern that reads as a comment counts as a
  kept one, and then it does not.
-/

set_option autoImplicit false

namespace GlobPreset

open GlobPreset.Path Text

/-! ### Covered alternatives -/

namespace Eliminate

/-- **When every match of an alternative lies below a kept directory**: its base is one or goes on
below one past no ignored name, and without a wildcard so does its text. -/
lemma Kept.coversAlternative_iff {k : Kept} (hk : k.policy = .sensitive) {a : Text} :
    k.coversAlternative a = true ↔
      if Pattern.hasWildcard a = true then
        Pattern.literalBase a ≠ [] ∧ ∃ d ∈ k.directories, Pattern.literalBase a = d ∨
          ∃ part, Pattern.literalBase a = d ++ .of '/' :: part ∧ k.ignore.crosses part false = false
      else ∃ d ∈ k.directories, ∃ part,
        Pattern.unescape a = d ++ .of '/' :: part ∧ k.ignore.crosses part true = false := by
  have hdiscerns := discerns_of_sensitive hk
  unfold coversAlternative
  split
  · rw [Bool.and_eq_true, Bool.or_eq_true, holds_iff (hdiscerns _), covers_iff (hdiscerns _)]
    refine and_congr (by simp) ?_
    constructor
    · rintro (hheld | ⟨d, hd, hpart⟩)
      · exact ⟨_, hheld, .inl rfl⟩
      · exact ⟨d, hd, .inr hpart⟩
    · rintro ⟨d, hd, rfl | hpart⟩
      · exact .inl hd
      · exact .inr ⟨d, hd, hpart⟩
  · rw [covers_iff (hdiscerns _)]

/-- **The alternatives of a pattern that is left out are covered.** -/
lemma coversAlternative_of_dropped {ignore : IgnoreRules} {includes : List Text} {p : Text}
    (hp : p ∈ includes) (hdrop : p ∉ eliminateRedundant ignore .sensitive includes)
    (hbase : ∀ d, Pattern.recursiveDirectory? p = some d → Pattern.literalBase p = d ∧ d ≠ []) :
    ∀ a ∈ Pattern.alternatives p,
      (keptDirectories ignore .sensitive includes).1.coversAlternative a = true := by
  obtain ⟨hpol, -, hkept, hall⟩ := keptDirectories_spec ignore .sensitive includes
  rw [mem_eliminateRedundant, and_iff_right hp] at hdrop
  cases hrec : Pattern.recursiveDirectory? p with
  | none =>
    rw [hrec] at hdrop
    simpa [Kept.coversPattern] using hdrop
  | some d =>
    intro a ha
    rw [Pattern.alternatives_of_recursiveDirectory? hrec, List.mem_singleton] at ha
    subst ha
    obtain ⟨hbase, hne⟩ := hbase d hrec
    have hwild : Pattern.hasWildcard a = true := by
      obtain ⟨head, rfl, -, -⟩ := Pattern.recursiveDirectory?_eq_some hrec
      rw [Pattern.hasWildcard, Pattern.recursiveTail,
        Pattern.hasUnescaped_append_slash (by decide), Bool.or_eq_true]
      exact .inr rfl
    have hcov := hall a hp d hrec
    have hdiscerns := Kept.discerns_of_sensitive hpol d
    rw [Bool.or_eq_true, Kept.covers_iff hdiscerns, Kept.holds_iff hdiscerns] at hcov
    rw [Kept.coversAlternative_iff hpol, if_pos hwild, hbase]
    refine ⟨hne, ?_⟩
    rcases hcov with ⟨d', hd', hpart⟩ | hheld
    · exact ⟨d', hd', .inr hpart⟩
    · exact ⟨d, hheld, .inl rfl⟩

end Eliminate

/-- Past no ignored name in two steps. -/
lemma IgnoreRules.crosses_append {ignore : IgnoreRules} {part rel : Text} (hpart : part ≠ [])
    (hrel : rel ≠ []) (h : ignore.crosses part false = false)
    (hrest : ignore.crosses rel true = false) :
    ignore.crosses (part ++ .of '/' :: rel) true = false := by
  rw [ignore.crosses_of_directory hpart] at h
  have hfull : (part ++ .of '/' :: rel).isEmpty = false := by simp
  have hrest' : rel.isEmpty = false := by simpa using hrel
  simp only [crosses, hrest', hfull, Bool.false_eq_true, if_false, if_true, Bool.true_and,
    segments_append_slash] at hrest ⊢
  rw [List.dropLast_append_of_ne_nil (segments_ne_nil rel), List.any_append, h,
    List.getLast?_append_of_ne_nil _ (segments_ne_nil rel)]
  simpa using hrest

/-! ### Reducible lists -/

/-- A tidy list of which no included alternative has an empty segment, or names a directory of the
tree unless it has a wildcard. -/
structure PatternList.IsReducible (list : PatternList) (t : MemoryTree) : Prop where
  /-- The list is tidy. -/
  tidy : list.IsTidy
  /-- No segment is empty. -/
  full : ∀ p ∈ list.includes, ∀ a ∈ Pattern.alternatives p, Pattern.IsFull a
  /-- An alternative without a wildcard names no directory. -/
  noDirectory : ∀ p ∈ list.includes, ∀ a ∈ Pattern.alternatives p,
    Pattern.hasWildcard a = false →
      t.fileSystem.isDirectory (absolute t.root.toText (Pattern.unescape a)) = false

instance (list : PatternList) (t : MemoryTree) : Decidable (list.IsReducible t) :=
  decidable_of_iff
    (list.IsTidy ∧ (∀ p ∈ list.includes, ∀ a ∈ Pattern.alternatives p, Pattern.IsFull a) ∧
      ∀ p ∈ list.includes, ∀ a ∈ Pattern.alternatives p, Pattern.hasWildcard a = false →
        t.fileSystem.isDirectory (absolute t.root.toText (Pattern.unescape a)) = false)
    ⟨fun ⟨h₁, h₂, h₃⟩ => ⟨h₁, h₂, h₃⟩, fun h => ⟨h.tidy, h.full, h.noDirectory⟩⟩

/-- A list with fewer included patterns is tidy. -/
lemma PatternList.IsTidy.restrict {list : PatternList} (h : list.IsTidy) {fewer : List Text}
    (hsub : ∀ p ∈ fewer, p ∈ list.includes) : (⟨fewer, list.excludes⟩ : PatternList).IsTidy := by
  have hmem : ∀ p ∈ fewer ++ list.excludes, p ∈ list.includes ++ list.excludes := by
    intro p hp
    rw [List.mem_append] at hp ⊢
    exact hp.imp_left (hsub p)
  have hsafe := PatternList.checkSafe_eq_ok.1 h.safe
  exact ⟨PatternList.checkSafe_eq_ok.2 fun p hp => hsafe p (hmem p hp),
    fun p hp => h.tidy p (hmem p hp), fun p hp => h.compiles p (hmem p hp)⟩

namespace Expand

variable {t : MemoryTree} {ignore : IgnoreRules} {list : PatternList}

/-- The directory of an included directory pattern. -/
lemma directoryGlob_spec (hlist : list.IsReducible t) {p d : Text} (hp : p ∈ list.includes)
    (hrec : Pattern.recursiveDirectory? p = some d) (hcomment : p.head? ≠ some (.of '#')) :
    p ∈ Pattern.alternatives p ∧ Pattern.literalBase p = d ∧ d ≠ [] ∧
      ∀ path, Pattern.finds p path = true ↔
        ∃ behind, Wildmatch.RuleSet.plainPath path = d ++ .of '/' :: behind := by
  have ha : p ∈ Pattern.alternatives p := by
    rw [Pattern.alternatives_of_recursiveDirectory? hrec]
    exact List.mem_singleton_self p
  have hfull := hlist.full p hp p ha
  have hsel := (isReadable_of_isTidy hlist.tidy).selecting p (List.mem_append_left _ hp) p ha
  obtain ⟨hbase, hfinds⟩ := Pattern.finds_directoryGlob hrec hfull hsel hcomment
  refine ⟨ha, hbase, ?_, hfinds⟩
  obtain ⟨head, rfl, -, rfl⟩ := Pattern.recursiveDirectory?_eq_some hrec
  intro hnil
  obtain ⟨first, others, hcons⟩ := List.exists_cons_of_ne_nil (segments_ne_nil head)
  have hfirst := hfull first (by
    rw [show segments (head ++ Pattern.recursiveTail) = segments head ++ [[.of '*', .of '*']] from
      segments_append_slash _ _, hcons]
    exact List.mem_cons_self)
  rw [← ofSegments_segments head, Pattern.unescape_ofSegments, hcons, List.map_cons] at hnil
  by_cases hothers : others.map Pattern.unescape = []
  · rw [hothers] at hnil
    exact hfirst hnil
  · rw [ofSegments_cons _ hothers] at hnil
    simp at hnil

/-- **What a covered alternative selects is reached from above**: it lies below a kept directory,
and no ignored name stands between the two.

**Proof sketch.** With a wildcard, what is matched lies strictly below the base of the alternative,
and no name on the way to it is ignored; the base itself is the kept directory or lies below it past
no ignored name. Without a wildcard only the file that is named can be selected, for a directory is
not. -/
lemma exists_below_of_covered (ht : t.WellFormed) (hlist : list.IsReducible t)
    {k : Eliminate.Kept} (hpol : k.policy = .sensitive) (hign : k.ignore = ignore) {p a f : Text}
    (hp : p ∈ list.includes) (ha : a ∈ Pattern.alternatives p)
    (hcov : k.coversAlternative a = true) (hf : t.fileSystem.HasFile t.root.toText f)
    (hfind : Pattern.finds a f = true)
    (hpos : f = Pattern.literalBase a ∨
      ∃ rel, f = join (Pattern.literalBase a) rel ∧ ignore.crosses rel true = false) :
    ∃ d ∈ k.directories, ∃ rel, f = d ++ .of '/' :: rel ∧ ignore.crosses rel true = false := by
  have hp' := List.mem_append_left list.excludes hp
  have htidy := hlist.tidy.tidy p hp' a ha
  have hsafe : unsafeCause? (Pattern.literalBase a) = none := by
    refine PatternList.checkSafe_eq_ok.1 hlist.tidy.safe p hp' _ ?_
    exact List.mem_cons_of_mem _ (List.mem_flatMap.2 ⟨a, ha, by simp⟩)
  have hnames := Pattern.areNames_literalRun htidy hsafe hfind
  rw [Eliminate.Kept.coversAlternative_iff hpol, hign] at hcov
  cases hwild : Pattern.hasWildcard a with
  | true =>
    rw [if_pos hwild] at hcov
    obtain ⟨hne, d, hd, hbase⟩ := hcov
    -- the file lies strictly below the base
    obtain ⟨below, hbelow⟩ := Pattern.below_of_finds htidy hwild hne hfind
    rw [Pattern.plainPath_of_isPlain hf.1] at hbelow
    have hjoin : ∀ rel, join (Pattern.literalBase a) rel =
      Pattern.literalBase a ++ .of '/' :: rel := by
      intro rel
      rw [join, if_neg (by simpa using hne)]
    obtain ⟨rel, hrel, hcross⟩ : ∃ rel, f = Pattern.literalBase a ++ .of '/' :: rel ∧
        ignore.crosses rel true = false := by
      rcases hpos with hself | ⟨rel, hrel, hcross⟩
      · rw [hself] at hbelow
        simp at hbelow
      · exact ⟨rel, by rw [hrel, hjoin], hcross⟩
    rcases hbase with rfl | ⟨part, hpart, hpast⟩
    · exact ⟨_, hd, rel, hrel, hcross⟩
    · refine ⟨d, hd, part ++ .of '/' :: rel, by rw [hrel, hpart]; simp, ?_⟩
      refine IgnoreRules.crosses_append ?_ ?_ hpast hcross
      · rintro rfl
        have hrun : (Pattern.literalRun a).map Pattern.unescape ≠ [] := by
          intro hnil
          rw [Pattern.literalBase_eq, hnil] at hne
          exact hne rfl
        refine getLast?_ofSegments_ne hrun hnames ?_
        rw [← Pattern.literalBase_eq, hpart, List.getLast?_concat]
      · have hplain := hf.1
        rw [hrel, ← hjoin, Pattern.literalBase_eq] at hplain
        exact (isPlain_of_join hnames hplain).ne_nil
  | false =>
    rw [if_neg (by simp [hwild])] at hcov
    have hbase := Pattern.literalBase_of_noWildcard (hlist.full p hp a ha) hwild
    rw [← hbase] at hcov
    rcases hpos with rfl | ⟨rel, rfl, -⟩
    · exact hcov
    · -- the file would lie in a directory that the alternative names
      have hdir := hlist.noDirectory p hp a ha hwild
      rw [← hbase, Pattern.literalBase_eq, absolute_ofSegments hnames] at hdir
      rw [Pattern.literalBase_eq] at hf
      have hkind := MemoryTree.directory_of_join ht hnames hf
      simp [FileSystem.isDirectory, MemoryTree.fileSystem, hkind] at hdir

/-- **The expansion stays the same** without redundant patterns, in a tree without linked or
unreadable directories, if no included directory pattern reads as a comment.

**Proof sketch.** Both expansions are filters of the files of the tree. A file that some alternative
selects that is left out lies below a kept directory, past no ignored name; so the pattern of that
directory, which is among those that are left, selects it too. -/
theorem outcome_eliminateRedundant (ht : t.WellFormed) (hu : t.IsUnlinked) {context : Context}
    (hpolicy : context.policy = .sensitive) (hignore : context.ignoreRules = .ok ignore)
    (hlist : list.IsReducible t)
    (hcomment : ∀ p ∈ list.includes, (Pattern.recursiveDirectory? p).isSome →
      p.head? ≠ some (.of '#')) :
    ∃ files, outcome t.fileSystem t.root.toText context list = .ok files ∧
      outcome t.fileSystem t.root.toText context
        ⟨eliminateRedundant ignore context.policy list.includes, list.excludes⟩ = .ok files := by
  rw [hpolicy]
  have hsub : ∀ p ∈ eliminateRedundant ignore .sensitive list.includes, p ∈ list.includes :=
    fun p hp => (mem_eliminateRedundant.1 hp).1
  obtain ⟨⟨files, hout, hsorted, hnodup, hmem⟩, -⟩ :=
    outcome_eq_filter ht hu hpolicy hignore hlist.tidy
  obtain ⟨⟨files', hout', hsorted', hnodup', hmem'⟩, -⟩ :=
    outcome_eq_filter ht hu hpolicy hignore (hlist.tidy.restrict hsub)
  refine ⟨files, hout, ?_⟩
  rw [hout', Text.eq_of_pairwise_of_mem_iff hsorted' hsorted hnodup' hnodup fun f => ?_]
  rw [hmem, hmem']
  refine and_congr_right fun hf => and_congr_left fun _ => ⟨?_, ?_⟩
  · rintro ⟨p, hp, hselects⟩
    exact ⟨p, hsub p hp, hselects⟩
  rintro ⟨p, hp, a, ha, hmatch, hpos⟩
  by_cases hleft : p ∈ eliminateRedundant ignore .sensitive list.includes
  · exact ⟨p, hleft, a, ha, hmatch, hpos⟩
  -- the pattern is left out, so a kept directory covers the alternative
  obtain ⟨hpol, hign, -, -⟩ := Eliminate.keptDirectories_spec ignore .sensitive list.includes
  have hread := isReadable_of_isTidy hlist.tidy
  have hcov := Eliminate.coversAlternative_of_dropped hp hleft (fun d hrec => by
    obtain ⟨-, hbase, hne, -⟩ :=
      directoryGlob_spec hlist hp hrec (hcomment p hp (by rw [hrec]; rfl))
    exact ⟨hbase, hne⟩) a ha
  obtain ⟨d, hd, rel, rfl, hcross⟩ := exists_below_of_covered ht hlist hpol hign hp ha hcov hf
    ((Pattern.matches_iff (hread.selecting p (List.mem_append_left _ hp) a ha)).1 hmatch) hpos
  obtain ⟨x, hx, hrec⟩ := Eliminate.exists_pattern hd
  obtain ⟨hself, hbase, hne, hfinds⟩ :=
    directoryGlob_spec hlist (hsub x hx) hrec (hcomment x (hsub x hx) (by rw [hrec]; rfl))
  refine ⟨x, hx, x, hself, ?_, .inr ⟨rel, ?_, hcross⟩⟩
  · refine (Pattern.matches_iff
      (hread.selecting x (List.mem_append_left _ (hsub x hx)) x hself)).2 ?_
    exact (hfinds _).2 ⟨rel, Pattern.plainPath_of_isPlain hf.1⟩
  · rw [hbase, join, if_neg (by simpa using hne)]

/-- A list of which one pattern is redundant, while another one looks so but lies behind an ignored
name. -/
def reducibleList : PatternList :=
  ⟨["s/**".toText, "s/a.t".toText, "s/o/b.t".toText], []⟩

/-- The sample tree, with and without the redundant pattern. -/
theorem outcome_eliminateRedundant_sampleTree :
    eliminateRedundant ⟨[[.of 'o']], ⟨[]⟩⟩ .sensitive reducibleList.includes =
        ["s/**".toText, "s/o/b.t".toText] ∧
      ∃ files, outcome sampleTree.fileSystem sampleTree.root.toText sampleContext reducibleList =
          .ok files ∧
        outcome sampleTree.fileSystem sampleTree.root.toText sampleContext
          ⟨["s/**".toText, "s/o/b.t".toText], []⟩ = .ok files := by
  have hleft : eliminateRedundant ⟨[[.of 'o']], ⟨[]⟩⟩ .sensitive reducibleList.includes =
      ["s/**".toText, "s/o/b.t".toText] := by decide +kernel
  have hignore : sampleContext.ignoreRules = .ok ⟨[[.of 'o']], ⟨[]⟩⟩ := rfl
  have hlist : reducibleList.IsReducible sampleTree := by decide +kernel
  obtain ⟨files, hall, hfewer⟩ := outcome_eliminateRedundant wellFormed_sampleTree
    isUnlinked_sampleTree rfl hignore hlist (by decide +kernel)
  refine ⟨hleft, files, hall, ?_⟩
  rw [← hleft]
  exact hfewer

/-- A tree with a file in a directory whose name starts with a comment mark. -/
def markedTree : MemoryTree := .build "/p".toText [.file "#x/a.t".toText []]

/-- The pattern of that directory, which reads as a comment, and that of the file. -/
def markedIncludes : List Text := ["#x/**".toText, "\\#x/a.t".toText]

/-- The tree with the marked name is well-formed. -/
lemma wellFormed_markedTree : markedTree.WellFormed :=
  MemoryTree.wellFormed_build rfl _ (by decide +kernel)

/-- **A directory pattern that reads as a comment** matches nothing, but counts as a kept one: what
it covers is lost. -/
theorem not_outcome_eliminateRedundant :
    ¬ ∀ (t : MemoryTree) (context : Context) (ignore : IgnoreRules) (includes : List Text),
      t.WellFormed → t.IsUnlinked → context.policy = .sensitive →
      context.ignoreRules = .ok ignore → (⟨includes, []⟩ : PatternList).IsReducible t →
      ∃ files, outcome t.fileSystem t.root.toText context ⟨includes, []⟩ = .ok files ∧
        outcome t.fileSystem t.root.toText context
          ⟨eliminateRedundant ignore context.policy includes, []⟩ = .ok files := by
  intro hall
  have hignore : sampleContext.ignoreRules = .ok ⟨[[.of 'o']], ⟨[]⟩⟩ := rfl
  obtain ⟨files, hbefore, hafter⟩ := hall markedTree sampleContext _ markedIncludes
    wellFormed_markedTree ⟨by decide +kernel, rfl⟩ rfl hignore (by decide +kernel)
  have hfound : outcome markedTree.fileSystem markedTree.root.toText sampleContext
      ⟨markedIncludes, []⟩ = .ok ["#x/a.t".toText] := by decide +kernel
  have hlost : outcome markedTree.fileSystem markedTree.root.toText sampleContext
      ⟨eliminateRedundant ⟨[[.of 'o']], ⟨[]⟩⟩ sampleContext.policy markedIncludes, []⟩ =
        .ok [] := by
    decide +kernel
  have hone : files = ["#x/a.t".toText] := Except.ok.inj (hbefore.symm.trans hfound)
  have hnone : files = [] := Except.ok.inj (hafter.symm.trans hlost)
  rw [hone] at hnone
  cases hnone

end Expand

end GlobPreset
