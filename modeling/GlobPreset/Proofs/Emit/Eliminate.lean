import GlobPreset.Proofs.Collapse.Rules

/-!
# Nothing is lost with redundant patterns

Where a pattern of a run is left out as redundant, the pattern of some kept directory stands for all
files that it stood for: the walk from that directory gets to them, because no name on the way is
ignored.

## Main results

* `Eliminate.Kept.covers_iff`, `Eliminate.keptDirectories_spec` — what is kept, and what it covers.
* `Glob.StandsFor.of_isBelow` — **a directory pattern stands for what lies below its directory**, as
  far as no ignored name is crossed.
* `Engine.Accounts.eliminateRedundant` — the patterns that are left account for the selection.
-/

set_option autoImplicit false

namespace GlobPreset

open GlobPreset.Path Text

/-! ### Kept directories -/

namespace Eliminate

/-- **When a kept directory covers a path**: its segments are compared alike with some that the path
begins with, and the path without as many characters as the key of the directory and a slash have
crosses no ignored name. -/
lemma Kept.covers_iff_segments {k : Kept} {target : Text} {endsInFile : Bool} :
    k.covers target endsInFile = true ↔ ∃ d ∈ k.directories, ∃ above below,
      segments target = above ++ below ∧ below ≠ [] ∧
        above.map k.policy.key = (segments d).map k.policy.key ∧
        k.ignore.crosses (target.drop ((k.policy.key d).length + 1)) endsInFile = false := by
  rw [covers, List.any_eq_true]
  refine exists_congr fun d => and_congr_right fun _ => ?_
  have hstarts : startsWith (k.policy.key target) (k.policy.key d ++ [.of '/']) = true ↔ _ :=
    startsWith_key_iff
  by_cases hlead : startsWith (k.policy.key target) (k.policy.key d ++ [.of '/']) = true
  · obtain ⟨above, below, hsplit, hbelow, habove⟩ := hstarts.1 hlead
    simp only [partBelow?, hlead, if_true, Bool.not_eq_true', List.length_append,
      List.length_singleton]
    constructor
    · intro hcross
      exact ⟨above, below, hsplit, hbelow, habove, hcross⟩
    · rintro ⟨-, -, -, -, -, hcross⟩
      exact hcross
  · simp only [partBelow?, hlead, Bool.false_eq_true, if_false, false_iff]
    rintro ⟨above, below, hsplit, hbelow, habove, -⟩
    exact hlead (hstarts.2 ⟨above, below, hsplit, hbelow, habove⟩)

/-- Every kept directory is discerned from whatever else leads the path. -/
def Kept.Discerns (k : Kept) (path : Text) : Prop :=
  ∀ d ∈ k.directories, k.policy.Discerns d path

/-- Where letter case counts, all paths are told apart. -/
lemma Kept.discerns_of_sensitive {k : Kept} (hk : k.policy = .sensitive) (path : Text) :
    k.Discerns path := by
  intro d _
  rw [hk]
  exact CasePolicy.discerns_sensitive d path

/-- A directory is held if it was added, where its path is told apart. -/
lemma Kept.holds_iff {k : Kept} {path : Text} (h : k.Discerns path) :
    k.holds path = true ↔ path ∈ k.directories := by
  rw [holds, List.any_eq_true]
  constructor
  · rintro ⟨d, hd, hkey⟩
    have hsegs := congrArg segments (eq_of_beq hkey)
    rw [segments_key, segments_key] at hsegs
    have hsame := (h d hd).eq_of_key_eq (List.append_nil (segments path)).symm hsegs.symm
    rw [← ofSegments_segments path, hsame, ofSegments_segments]
    exact hd
  · intro hpath
    exact ⟨path, hpath, beq_self_eq_true _⟩

/-- **A kept directory covers a path** that goes on below it past no ignored name, if it is
discerned from what else leads the path. -/
lemma Kept.covers_iff {k : Kept} {target : Text} (h : k.Discerns target) {endsInFile : Bool} :
    k.covers target endsInFile = true ↔ ∃ d ∈ k.directories, ∃ part,
      target = d ++ .of '/' :: part ∧ k.ignore.crosses part endsInFile = false := by
  rw [covers_iff_segments]
  refine exists_congr fun d => and_congr_right fun hd => ?_
  constructor
  · rintro ⟨above, below, hsplit, hbelow, habove, hcross⟩
    rw [drop_key (h d hd).keepsLength hsplit hbelow habove] at hcross
    obtain rfl := (h d hd).eq_of_key_eq hsplit habove
    refine ⟨ofSegments below, ?_, hcross⟩
    rw [← ofSegments_segments target, hsplit, ofSegments_append (segments_ne_nil d) hbelow,
      ofSegments_segments]
  · rintro ⟨part, rfl, hcross⟩
    have hsplit := segments_append_slash d part
    refine ⟨segments d, segments part, hsplit, segments_ne_nil part, rfl, ?_⟩
    rwa [drop_key (h d hd).keepsLength hsplit (segments_ne_nil part) rfl, ofSegments_segments]

/-- Covering and holding last when further directories are kept. -/
lemma Kept.covers_mono {k k' : Kept} (hpolicy : k'.policy = k.policy)
    (hignore : k'.ignore = k.ignore) (hsub : ∀ d ∈ k.directories, d ∈ k'.directories)
    {target : Text} (h : (k.covers target false || k.holds target) = true) :
    (k'.covers target false || k'.holds target) = true := by
  simp only [covers, holds, partBelow?, Bool.or_eq_true, List.any_eq_true, hpolicy, hignore] at h ⊢
  exact h.imp (fun ⟨d, hd, hpart⟩ => ⟨d, hsub d hd, hpart⟩)
    fun ⟨d, hd, hkey⟩ => ⟨d, hsub d hd, hkey⟩

/-- What going through directory patterns keeps: every kept directory was kept already or has its
pattern among the kept ones, and the directory of every pattern is covered or kept. -/
lemma foldl_keepGlob (globs : List DirectoryGlob) :
    ∀ (acc : Kept × List Text),
      let last := globs.foldl keepGlob acc
      last.1.policy = acc.1.policy ∧ last.1.ignore = acc.1.ignore ∧
        (∀ d ∈ acc.1.directories, d ∈ last.1.directories) ∧ (∀ p ∈ acc.2, p ∈ last.2) ∧
        (∀ d ∈ last.1.directories, d ∈ acc.1.directories ∨ ∃ p ∈ last.2, (d, p) ∈ globs) ∧
        ∀ g ∈ globs, (last.1.covers g.1 false || last.1.holds g.1) = true := by
  induction globs with
  | nil => exact fun acc => ⟨rfl, rfl, fun _ h => h, fun _ h => h, fun _ h => .inl h, by simp⟩
  | cons g globs ih =>
    intro acc
    have hnext : (keepGlob acc g).1.policy = acc.1.policy ∧
        (keepGlob acc g).1.ignore = acc.1.ignore ∧
        (∀ d ∈ acc.1.directories, d ∈ (keepGlob acc g).1.directories) ∧
        (∀ p ∈ acc.2, p ∈ (keepGlob acc g).2) ∧
        (∀ d ∈ (keepGlob acc g).1.directories,
          d ∈ acc.1.directories ∨ d = g.1 ∧ g.2 ∈ (keepGlob acc g).2) ∧
        ((keepGlob acc g).1.covers g.1 false || (keepGlob acc g).1.holds g.1) = true := by
      unfold keepGlob
      split
      · rename_i hcovered
        exact ⟨rfl, rfl, fun _ h => h, fun _ h => h, fun _ h => .inl h, hcovered⟩
      · refine ⟨rfl, rfl, fun _ h => List.mem_append_left _ h,
          fun _ h => List.mem_append_left _ h, fun d hd => ?_, by simp [Kept.holds]⟩
        rcases List.mem_append.1 hd with hd | hd
        · exact .inl hd
        · exact .inr ⟨List.mem_singleton.1 hd,
            List.mem_append_right _ (List.mem_singleton_self _)⟩
    obtain ⟨hpol, hign, hdirs, hpats, hnew, hself⟩ := hnext
    obtain ⟨hpol', hign', hdirs', hpats', hnew', hall'⟩ := ih (keepGlob acc g)
    refine ⟨hpol'.trans hpol, hign'.trans hign, fun d hd => hdirs' d (hdirs d hd),
      fun p hp => hpats' p (hpats p hp), fun d hd => ?_, fun h hh => ?_⟩
    · rcases hnew' d hd with hold | ⟨p, hp, hmem⟩
      · rcases hnew d hold with hold | ⟨rfl, hp⟩
        · exact .inl hold
        · exact .inr ⟨g.2, hpats' _ hp, List.mem_cons_self⟩
      · exact .inr ⟨p, hp, List.mem_cons_of_mem _ hmem⟩
    · rcases List.mem_cons.1 hh with rfl | hh
      · exact Kept.covers_mono hpol' hign' hdirs' hself
      · exact hall' h hh

/-- The globs of directories among patterns, each with its directory. -/
lemma mem_directoryGlobs {patterns : List Text} {d p : Text} :
    (d, p) ∈ directoryGlobs patterns ↔ p ∈ patterns ∧ Pattern.recursiveDirectory? p = some d := by
  rw [directoryGlobs, mem_sortBy, List.mem_filterMap]
  constructor
  · rintro ⟨q, hq, hmap⟩
    obtain ⟨d', hd', hpair⟩ := Option.map_eq_some_iff.1 hmap
    cases hpair
    exact ⟨hq, hd'⟩
  · rintro ⟨hp, hd⟩
    exact ⟨p, hp, by rw [hd]; rfl⟩

/-- **What is kept**: every kept directory has a kept pattern, and every directory pattern has its
directory kept or covered. -/
lemma keptDirectories_spec (ignore : IgnoreRules) (policy : CasePolicy) (patterns : List Text) :
    let kept := keptDirectories ignore policy patterns
    kept.1.policy = policy ∧ kept.1.ignore = ignore ∧
      (∀ d ∈ kept.1.directories, ∃ p ∈ kept.2, p ∈ patterns ∧
        Pattern.recursiveDirectory? p = some d) ∧
      ∀ p ∈ patterns, ∀ d, Pattern.recursiveDirectory? p = some d →
        (kept.1.covers d false || kept.1.holds d) = true := by
  obtain ⟨hpol, hign, -, -, hnew, hall⟩ :=
    foldl_keepGlob (directoryGlobs patterns) (⟨ignore, policy, []⟩, [])
  refine ⟨hpol, hign, fun d hd => ?_, fun p hp d hd => ?_⟩
  · rcases hnew d hd with hnil | ⟨p, hp, hmem⟩
    · cases hnil
    · exact ⟨p, hp, mem_directoryGlobs.1 hmem⟩
  · exact hall (d, p) (mem_directoryGlobs.2 ⟨hp, hd⟩)

end Eliminate

/-- The patterns that are left. -/
lemma mem_eliminateRedundant {ignore : IgnoreRules} {policy : CasePolicy} {patterns : List Text}
    {p : Text} :
    p ∈ eliminateRedundant ignore policy patterns ↔ p ∈ patterns ∧
      (if (Pattern.recursiveDirectory? p).isSome then
          (Eliminate.keptDirectories ignore policy patterns).2.contains p
        else !(Eliminate.keptDirectories ignore policy patterns).1.coversPattern p) = true :=
  List.mem_filter

/-- **Every kept directory has its pattern** among the patterns that are left. -/
lemma Eliminate.exists_pattern {ignore : IgnoreRules} {policy : CasePolicy}
    {patterns : List Text} {d : Text}
    (hd : d ∈ (keptDirectories ignore policy patterns).1.directories) :
    ∃ p ∈ eliminateRedundant ignore policy patterns, Pattern.recursiveDirectory? p = some d := by
  obtain ⟨p, hp, hmem, hrec⟩ := (keptDirectories_spec ignore policy patterns).2.2.1 d hd
  refine ⟨p, mem_eliminateRedundant.2 ⟨hmem, ?_⟩, hrec⟩
  rw [hrec]
  simpa using hp

/-! ### Walks from above -/

/-- The way to a directory meets an ignored name if one of its segments is one. -/
lemma IgnoreRules.crosses_of_directory (ignore : IgnoreRules) {part : Text} (h : part ≠ []) :
    ignore.crosses part false = (segments part).any ignore.ignoresDirectory := by
  simp [IgnoreRules.crosses, h]

namespace Glob

variable {e : Engine} {s : Scanner} {patterns : List Text}

/-- The pattern of a scanned directory stands for what is reached from there. -/
lemma standsFor_tree (hw : e.WorksOn s) {d : Text} (hd : IsTame d) {scan : DirectoryScan}
    (hscan : s.scan? d = some scan) {rel : List Text}
    (hreach : s.fs.Reaches s.ignore s.root (segments d) rel) :
    (Glob.tree d).StandsFor s (ofSegments (segments d ++ rel)) := by
  have hn := hd.areNames
  have hscan' : s.scan? (ofSegments (segments d)) = some scan := by rwa [ofSegments_segments]
  have hsurvey := Scanner.surveys_of_scan? hw.project hn hscan'
  constructor
  · have hwalk := (hsurvey.mem_walk hw.project hn _).2 ((hsurvey.mem_files _).2 ⟨rel, hreach, rfl⟩)
    rwa [ofSegments_segments] at hwalk
  · apply ((Pattern.findsBy_directoryPattern s.policy hd).2 _).2
    refine ⟨s.policy.key (ofSegments rel), ?_⟩
    have hplain : IsPlain (ofSegments (segments d ++ rel)) :=
      isPlain_ofSegments (by simp [hreach.ne_nil]) (hreach.areNames hw.project hn)
    have hslash : s.policy.key [.of '/'] = [.of '/'] := s.policy.key_of_fold (by decide)
    rw [Pattern.plainPath_of_isPlain hplain.key,
      ofSegments_append (segments_ne_nil d) hreach.ne_nil, ofSegments_segments,
      s.policy.key_append, s.policy.key_cons, hslash]
    rfl

/-- Everything that a pattern stands for lies below a directory, and a walk from there gets to it:
the pattern generalizes from the directory itself, or its path goes on below the directory past no
ignored name. -/
def IsBelow (g : Glob) (ignore : IgnoreRules) (d : Text) : Prop :=
  g.base = d ∧ g.isFile = false ∨
    ∃ part, g.base = d ++ .of '/' :: part ∧ ignore.crosses part g.isFile = false

/-- What stands for something is reached from its path, if it generalizes. -/
lemma StandsFor.reaches (hw : e.WorksOn s) {g : Glob} (hg : e.Admits s patterns g)
    (hgen : g.isFile = false) (htame : IsTame g.base) {f : Text} (h : g.StandsFor s f) :
    ∃ rel, f = ofSegments (segments g.base ++ rel) ∧
      s.fs.kind? (inside s.root (segments g.base)) = some .directory ∧
      s.fs.Reaches s.ignore s.root (segments g.base) rel := by
  obtain ⟨scan, hscan⟩ := hg.scanned hgen
  have hscan' : s.scan? (ofSegments (segments g.base)) = some scan := by
    rwa [ofSegments_segments]
  have hsurvey := Scanner.surveys_of_scan? hw.project htame.areNames hscan'
  have hwalk := h.1
  rw [← ofSegments_segments g.base, hsurvey.mem_walk hw.project htame.areNames,
    hsurvey.mem_files] at hwalk
  obtain ⟨rel, hreach, rfl⟩ := hwalk
  exact ⟨rel, rfl, hsurvey.directory, hreach⟩

/-- **A directory pattern stands for what lies below its directory**, as far as no ignored name is
crossed: for a selected file there, and for whatever a generalizing pattern further below stands
for. -/
lemma StandsFor.of_isBelow (hw : e.WorksOn s) {d : Text}
    (hd : e.Admits s patterns (.tree d)) {g : Glob} (hg : e.Admits s patterns g) {f : Text}
    (h : g.StandsFor s f) (hbelow : g.IsBelow s.ignore d) : (Glob.tree d).StandsFor s f := by
  have htame : IsTame d := hd.proper
  obtain ⟨scan, hscan⟩ := hd.scanned rfl
  rcases hbelow with ⟨hbase, hgen⟩ | ⟨part, hbase, hcross⟩
  · obtain ⟨rel, rfl, -, hreach⟩ := h.reaches hw hg hgen (hbase ▸ htame)
    rw [hbase] at hreach ⊢
    exact standsFor_tree hw htame hscan hreach
  have hscan' : s.scan? (ofSegments (segments d)) = some scan := by rwa [ofSegments_segments]
  have hsurvey := Scanner.surveys_of_scan? hw.project htame.areNames hscan'
  have hsegs : segments g.base = segments d ++ segments part := by
    rw [hbase, segments_append_slash]
  have hgtame : IsTame g.base := by
    rcases hg.proper.base_eq_nil_or with ⟨extension, rfl⟩ | ht
    · simp [base] at hbase
    · exact ht
  cases hgen : g.isFile with
  | false =>
    -- the walk from above gets through the way between the two
    have hpart : part ≠ [] := by
      rintro rfl
      have hnil : [] ∈ segments g.base := by
        rw [hsegs]
        exact List.mem_append_right _ List.mem_cons_self
      exact absurd rfl (hgtame.areNames [] hnil).ne_nil
    rw [hgen, s.ignore.crosses_of_directory hpart] at hcross
    obtain ⟨rel, rfl, hdir, hreach⟩ := h.reaches hw hg hgen hgtame
    rw [hsegs] at hdir hreach ⊢
    have hfurther := (hsurvey.clear.descend hw.project (hsegs ▸ hgtame.areNames) hdir hcross).2
      rel hreach
    rw [List.append_assoc]
    exact standsFor_tree hw htame hscan hfurther
  | true =>
    -- the file itself is reached
    have hfile := (hg.chosen hgen).2
    have hparts : AreNames (segments part) := (hsegs ▸ hgtame.areNames).right
    have hwalk : f ∈ Walk.files s.fs s.ignore s.root (ofSegments (segments g.base)) := by
      rw [ofSegments_segments]
      exact h.1
    rw [Walk.files_of_isFile (segments_ne_nil g.base) hgtame.areNames hfile.kind?,
      List.mem_singleton] at hwalk
    subst hwalk
    rw [hgen, ← ofSegments_segments part,
      s.ignore.crosses_ofSegments (segments_ne_nil part) hparts] at hcross
    rw [hsegs]
    apply standsFor_tree hw htame hscan
    exact FileSystem.reaches_of_kind? hw.project (segments_ne_nil part)
      (hsegs ▸ hgtame.areNames) hsurvey.clear (hsegs ▸ hfile.kind?) hcross

end Glob

/-! ### Leaving patterns out -/

namespace Engine.Accounts

variable {e : Engine} {s : Scanner}

/-- Fewer patterns account for the same files, if no exclusion is missing and what a missing pattern
stood for has another one to stand for it. -/
lemma restrict {patterns fewer keys : List Text} (h : e.Accounts s patterns keys)
    (hsub : ∀ p ∈ fewer, p ∈ patterns)
    (hexclusions : ∀ m, exclusion m ∈ patterns → exclusion m ∈ fewer)
    (hkept : ∀ g f, g.text ∈ patterns → e.Admits s patterns g → g.StandsFor s f →
      ∃ g', g'.text ∈ fewer ∧ e.Admits s patterns g' ∧ g'.StandsFor s f) :
    e.Accounts s fewer keys where
  admitted p hp := (h.admitted p (hsub p hp)).imp_left fun ⟨g, hg, hok⟩ =>
    ⟨g, hg, hok.mono hexclusions⟩
  covered f hsel hf := by
    obtain ⟨g, hg, hok, hstands⟩ := h.covered f hsel hf
    obtain ⟨g', hg', hok', hstands'⟩ := hkept g f hg hok hstands
    exact ⟨g', hg', hok'.mono hexclusions, hstands'⟩

/-- A pattern that is left out lies below a kept directory, if kept directories are discerned from
what else leads its path. -/
lemma isBelow_of_dropped {kept : Eliminate.Kept × List Text} {g : Glob} (hg : g.IsProper)
    (hk : g.base ≠ [] → kept.1.Discerns g.base)
    (hdirectory : ∀ d, g = .tree d →
      (kept.1.covers d false || kept.1.holds d) = true ∧ (d ∈ kept.1.directories → g.text ∈ kept.2))
    (hdrop : ¬ (if (Pattern.recursiveDirectory? g.text).isSome then kept.2.contains g.text
      else !kept.1.coversPattern g.text) = true) :
    ∃ d ∈ kept.1.directories, g.IsBelow kept.1.ignore d := by
  rw [hg.recursiveDirectory?_text] at hdrop
  -- every form but the directory pattern is asked for its one alternative
  have hcovers : g.directory? = none →
      kept.1.coversAlternative g.text = true := by
    intro hnone
    rw [hnone] at hdrop
    simpa [Eliminate.Kept.coversPattern, hg.alternatives_text] using hdrop
  have hwild : g.directory? = none → g.isFile = false →
      ∃ d ∈ kept.1.directories, g.IsBelow kept.1.ignore d := by
    intro hnone hgen
    have hcov := hcovers hnone
    unfold Eliminate.Kept.coversAlternative at hcov
    rw [if_pos (by rw [g.hasWildcard_text, hgen]; rfl), hg.literalBase_text, Bool.and_eq_true,
      Bool.or_eq_true] at hcov
    obtain ⟨hne, hcov⟩ := hcov
    have hdiscerns := hk (by simpa using hne)
    rw [Eliminate.Kept.holds_iff hdiscerns, Eliminate.Kept.covers_iff hdiscerns] at hcov
    rcases hcov with hholds | ⟨d, hd, part, hbase, hcross⟩
    · exact ⟨g.base, hholds, .inl ⟨rfl, hgen⟩⟩
    · exact ⟨d, hd, .inr ⟨part, hbase, hgen ▸ hcross⟩⟩
  cases g with
  | tree d =>
    obtain ⟨hcov, hkept⟩ := hdirectory d rfl
    have hdiscerns : kept.1.Discerns d := hk (IsTame.ne_nil hg)
    rw [Bool.or_eq_true, Eliminate.Kept.holds_iff hdiscerns,
      Eliminate.Kept.covers_iff hdiscerns] at hcov
    rcases hcov with ⟨d', hd', part, hbase, hcross⟩ | hholds
    · exact ⟨d', hd', .inr ⟨part, hbase, hcross⟩⟩
    · exact absurd (by simpa [Glob.directory?] using hkept hholds) hdrop
  | file path =>
    have hcov := hcovers rfl
    unfold Eliminate.Kept.coversAlternative at hcov
    have htext : Pattern.unescape (Glob.file path).text = path := by
      rw [Glob.text_file, (Pattern.spells_escapeLiteral path).unescape_eq]
    have hord : IsOrdinary path := hg
    have hdiscerns : kept.1.Discerns path := hk hord.ne_nil
    rw [if_neg (by rw [Glob.hasWildcard_text]; simp [Glob.isFile]), htext,
      Eliminate.Kept.covers_iff hdiscerns] at hcov
    obtain ⟨d, hd, part, hbase, hcross⟩ := hcov
    exact ⟨d, hd, .inr ⟨part, hbase, hcross⟩⟩
  | direct directory extension => exact hwild rfl rfl
  | deep directory extension => exact hwild rfl rfl
  | everywhere extension => exact hwild rfl rfl

/-- The path of a pattern that a run may select by leads somewhere. -/
lemma leads_of_admits (hw : e.WorksOn s) {patterns : List Text} {g : Glob}
    (hg : e.Admits s patterns g) (hne : g.base ≠ []) :
    IsPlain g.base ∧ s.fs.Leads s.root (segments g.base) := by
  cases hgen : g.isFile with
  | true =>
    have hchosen := hg.chosen hgen
    exact ⟨(hw.selected _ hchosen.1).isPlain, hw.leads_picked hchosen⟩
  | false =>
    have hplain : IsPlain g.base := by
      rcases hg.proper.base_eq_nil_or with ⟨extension, rfl⟩ | ht
      · exact absurd rfl hne
      · exact ht.areNames
    obtain ⟨scan, hscan⟩ := hg.scanned hgen
    rw [← ofSegments_segments g.base] at hscan
    refine ⟨hplain, hw.project.leads hplain ?_⟩
    rw [(Scanner.surveys_of_scan? hw.project hplain hscan).directory]
    rfl

/-- **What a pattern stands for that is left out as redundant**, the pattern of a kept directory
stands for. -/
lemma exists_kept (hw : e.WorksOn s) {patterns keys : List Text}
    (h : e.Accounts s patterns keys) {includes : List Text}
    (hincludes : ∀ p ∈ includes, p ∈ patterns ∧ isExcluded p = false) {g : Glob}
    (hg : e.Admits s patterns g) (hmem : g.text ∈ includes) {f : Text}
    (hstands : g.StandsFor s f) :
    ∃ g', g'.text ∈ GlobPreset.eliminateRedundant s.ignore s.policy includes ∧
      e.Admits s patterns g' ∧ g'.StandsFor s f := by
  obtain ⟨hpol, hign, hkept, hall⟩ := Eliminate.keptDirectories_spec s.ignore s.policy includes
  generalize hk : Eliminate.keptDirectories s.ignore s.policy includes = kept at *
  -- every kept directory has its pattern among the kept ones
  have hdirectory : ∀ d ∈ kept.1.directories, (Glob.tree d).text ∈ kept.2 ∧
      (Glob.tree d).text ∈ includes ∧ e.Admits s patterns (.tree d) := by
    intro d hd
    obtain ⟨p, hp, hpin, hrec⟩ := hkept d hd
    obtain ⟨hpat, hmark⟩ := hincludes p hpin
    rcases h.admitted p hpat with ⟨g', rfl, hg'⟩ | ⟨m, rfl, -⟩ | ⟨m, rfl, hm⟩
    · rw [hg'.proper.recursiveDirectory?_text] at hrec
      cases g' with
      | tree d' =>
        cases hrec
        exact ⟨hp, hpin, hg'⟩
      | _ => cases hrec
    · cases hmark
    · have hproper : (Glob.file m).IsProper := hm.ordinary
      rw [← Glob.text_file, hproper.recursiveDirectory?_text] at hrec
      cases hrec
  have hdiscerns : g.base ≠ [] → kept.1.Discerns g.base := by
    intro hne d hd
    rw [hpol]
    have hadmits := (hdirectory d hd).2.2
    obtain ⟨hplain, hleads⟩ := leads_of_admits hw hadmits (IsTame.ne_nil hadmits.proper)
    obtain ⟨hplain', hleads'⟩ := leads_of_admits hw hg hne
    exact hw.apart.discerns hplain hplain' hleads hleads'
  have hmemOut : ∀ p, p ∈ GlobPreset.eliminateRedundant s.ignore s.policy includes ↔
      p ∈ includes ∧ (if (Pattern.recursiveDirectory? p).isSome then kept.2.contains p
        else !kept.1.coversPattern p) = true := by
    intro p
    rw [GlobPreset.eliminateRedundant, hk, List.mem_filter]
  by_cases hout : g.text ∈ GlobPreset.eliminateRedundant s.ignore s.policy includes
  · exact ⟨g, hout, hg, hstands⟩
  rw [hmemOut, not_and] at hout
  obtain ⟨d, hd, hbelow⟩ := isBelow_of_dropped hg.proper hdiscerns (fun d hd => by
    subst hd
    exact ⟨hall _ hmem d hg.proper.recursiveDirectory?_text, fun hin => (hdirectory d hin).1⟩)
    (hout hmem)
  obtain ⟨hpat, hin, hadmits⟩ := hdirectory d hd
  refine ⟨.tree d, (hmemOut _).2 ⟨hin, ?_⟩, hadmits,
    hstands.of_isBelow hw hadmits hg (hign ▸ hbelow)⟩
  rw [hadmits.proper.recursiveDirectory?_text]
  simpa [Glob.directory?] using hpat

/-- **The patterns that are left account for the selection.** -/
theorem eliminateRedundant (hw : e.WorksOn s) {patterns keys : List Text}
    (h : e.Accounts s patterns keys) :
    e.Accounts s (GlobPreset.eliminateRedundant s.ignore s.policy
      (patterns.filter (fun p => !isExcluded p)) ++ patterns.filter isExcluded) keys := by
  have hincludes : ∀ p ∈ patterns.filter (fun p => !isExcluded p),
      p ∈ patterns ∧ isExcluded p = false := by
    intro p hp
    simpa using List.mem_filter.1 hp
  refine h.restrict (fun p hp => ?_) (fun m hm => ?_) fun g f hg hadmits hstands => ?_
  · rcases List.mem_append.1 hp with hp | hp
    · exact (hincludes p (List.mem_filter.1 hp).1).1
    · exact (List.mem_filter.1 hp).1
  · exact List.mem_append_right _ (List.mem_filter.2 ⟨hm, rfl⟩)
  · have hin : g.text ∈ patterns.filter (fun p => !isExcluded p) :=
      List.mem_filter.2 ⟨hg, by simp [hadmits.proper.isExcluded_text]⟩
    obtain ⟨g', hout, hadmits', hstands'⟩ := exists_kept hw h hincludes hadmits hin hstands
    exact ⟨g', List.mem_append_left _ hout, hadmits', hstands'⟩

end Engine.Accounts

end GlobPreset
