import GlobPreset.Collapse.Plan
import GlobPreset.Proofs.Collapse.Glob
import GlobPreset.Proofs.Expansion.Outcome
import GlobPreset.Proofs.FileSystem.Apart

/-!
# Patterns that account for files

The invariant of a run: if all selected paths are files of the project, its patterns stand for files
of the selection only, but for files that one of its exclusions takes away; its exclusions take no
file of the selection away; and every covered file is one that some pattern stands for. A selected
path that is no file has its own pattern, which may stand for anything.

## Main definitions

* `Engine.WorksOn` — an engine for ordinary paths, and the project that a scanner scans.
* `Engine.Picks` — a path is selected and a file of the project.
* `Glob.StandsFor` — a walk from the path of a pattern comes upon a file that the pattern matches.
* `Engine.Admits`, `Engine.Spares`, `Engine.Misses` — what a run may select and exclude.
* `Engine.Accounts` — some patterns account for some files.

## Main results

* `Coverage.confirms_spec` — what the check of a pattern says.
* `Engine.Accounts.append`, `Engine.Accounts.file` — accounts are put together from smaller ones.
* `Engine.accounts_of_confirms` — **a confirmed pattern accounts for its files**, together with the
  exclusions of what is missing.

## Design

Whether an engine works on a scanner is about where its scans come from, so nothing here depends on
the rules. A rule only has to make its proposals from a scan and a check.
-/

set_option autoImplicit false

namespace GlobPreset

open GlobPreset.Path

/-! ### Settings -/

/-- An engine for ordinary paths, and the project that a scanner scans, whose paths are told
apart. -/
structure Engine.WorksOn (e : Engine) (s : Scanner) : Prop where
  /-- The engine compares paths as the scanner does. -/
  policy_eq : e.context.policy = s.policy
  /-- The scanner looks at a project. -/
  project : s.fs.IsProject s.root
  /-- The paths of the project are told apart. -/
  apart : s.fs.IsToldApart s.root s.policy
  /-- The files of the project are ordinary. -/
  ordinary : s.fs.HasOrdinaryFiles s.root
  /-- The engine has its scans from the scanner. -/
  scan?_eq : ∀ d, e.scan? d = s.scan? d
  /-- What counts as selected is the selection. -/
  coverage_eq : e.coverage = .ofSelection s.policy e.selection
  /-- The selection holds ordinary paths. -/
  selected : ∀ f ∈ e.selection, IsOrdinary f
  /-- No two selected paths are compared alike. -/
  keys_nodup : (e.selection.map s.policy.key).Nodup
  /-- The candidates lead to selected files. -/
  candidate : ∀ d ∈ e.candidates, ∃ l rest, l ≠ [] ∧ rest ≠ [] ∧ d = ofSegments l ∧
    ofSegments (l ++ rest) ∈ e.selection ∧ AreNames (l ++ rest)

/-- A walk from the path of a pattern comes upon a file that the pattern matches. -/
def Glob.StandsFor (g : Glob) (s : Scanner) (f : Text) : Prop :=
  f ∈ Walk.files s.fs s.ignore s.root g.base ∧ Pattern.findsBy s.policy g.text f = true

namespace Engine

variable {e : Engine} {s : Scanner}

/-- The path is selected, and it is a file of the project. -/
def Picks (e : Engine) (s : Scanner) (f : Text) : Prop := f ∈ e.selection ∧ s.fs.HasFile s.root f

/-- The exclusion of a file. -/
def exclusion (path : Text) : Text := .of '!' :: Pattern.escapeLiteral path

/-- A file that a run may exclude: it takes no file of the selection away. -/
structure Spares (e : Engine) (s : Scanner) (path : Text) : Prop where
  /-- Its path is ordinary. -/
  ordinary : IsOrdinary path
  /-- No file of the selection is matched. -/
  spares : ∀ f, e.Picks s f → Pattern.findsBy s.policy (Pattern.escapeLiteral path) f = false

/-- A selected path that is no file of the project. -/
structure Misses (e : Engine) (s : Scanner) (path : Text) : Prop where
  /-- It is ordinary. -/
  ordinary : IsOrdinary path
  /-- It is selected. -/
  selected : path ∈ e.selection
  /-- It is no file. -/
  missing : ¬ s.fs.HasFile s.root path

/-- A pattern that a run may select by: it is read as it is written, and it stands for files of the
selection only, but for those that some exclusion among `patterns` takes away, if all selected paths
are files. One with a wildcard stands for as many files as the context asks for, and comes from a
scan. -/
structure Admits (e : Engine) (s : Scanner) (patterns : List Text) (g : Glob) : Prop where
  /-- The pattern is proper. -/
  proper : g.IsProper
  /-- Its line can be read. -/
  selecting : Pattern.IsSelecting (s.policy.key g.text)
  /-- It stands for files of the selection, but for excluded ones. -/
  sound : (∀ p ∈ e.selection, e.Picks s p) → ∀ f, g.StandsFor s f → f ∈ e.selection ∨
    ∃ m, exclusion m ∈ patterns ∧ Pattern.findsBy s.policy (Pattern.escapeLiteral m) f = true
  /-- A single file is one of the selection. -/
  chosen : g.isFile = true → e.Picks s g.base
  /-- The path of a generalizing pattern was scanned. -/
  scanned : g.isFile = false → ∃ scan, s.scan? g.base = some scan
  /-- A generalizing pattern stands for as many files as the context asks for. -/
  enough : (∀ p ∈ e.selection, e.Picks s p) → g.isFile = false → ∃ files : List Text,
    files.Nodup ∧ e.context.minFiles ≤ files.length ∧
    ∀ f ∈ files, f ∈ e.selection ∧ Pattern.findsBy s.policy g.text f = true

/-- Some patterns account for the files that have some keys. -/
structure Accounts (e : Engine) (s : Scanner) (patterns keys : List Text) : Prop where
  /-- Every pattern may be selected by, or excludes a file that may be excluded, or is that of a
  selected path that is no file. -/
  admitted : ∀ p ∈ patterns, (∃ g, p = g.text ∧ e.Admits s patterns g) ∨
    (∃ m, p = exclusion m ∧ e.Spares s m) ∨ ∃ m, p = Pattern.escapeLiteral m ∧ e.Misses s m
  /-- Every file of the selection that has one of the keys is one that some pattern stands for. -/
  covered : ∀ f, e.Picks s f → s.policy.key f ∈ keys →
    ∃ g, g.text ∈ patterns ∧ e.Admits s patterns g ∧ g.StandsFor s f

/-! ### Putting accounts together -/

/-- Other patterns do no harm, if no exclusion is missing among them. -/
lemma Admits.mono {patterns more : List Text} {g : Glob} (h : e.Admits s patterns g)
    (hsub : ∀ m, exclusion m ∈ patterns → exclusion m ∈ more) : e.Admits s more g :=
  { h with
    sound := fun hall f hf =>
      (h.sound hall f hf).imp_right fun ⟨m, hm, hfind⟩ => ⟨m, hsub m hm, hfind⟩ }

/-- No patterns account for no paths. -/
lemma Accounts.nil : e.Accounts s [] [] := ⟨by simp, by simp⟩

/-- **Accounts add up.** -/
lemma Accounts.append {patterns more keys others : List Text}
    (h : e.Accounts s patterns keys) (h' : e.Accounts s more others) :
    e.Accounts s (patterns ++ more) (keys ++ others) where
  admitted p hp := by
    rcases List.mem_append.1 hp with hp | hp
    · exact (h.admitted p hp).imp_left fun ⟨g, hg, hok⟩ =>
        ⟨g, hg, hok.mono fun _ hq => List.mem_append_left _ hq⟩
    · exact (h'.admitted p hp).imp_left fun ⟨g, hg, hok⟩ =>
        ⟨g, hg, hok.mono fun _ hq => List.mem_append_right _ hq⟩
  covered f hsel hf := by
    rcases List.mem_append.1 hf with hf | hf
    · obtain ⟨g, hg, hok, hstands⟩ := h.covered f hsel hf
      exact ⟨g, List.mem_append_left _ hg,
        hok.mono fun _ hq => List.mem_append_left _ hq, hstands⟩
    · obtain ⟨g, hg, hok, hstands⟩ := h'.covered f hsel hf
      exact ⟨g, List.mem_append_right _ hg,
        hok.mono fun _ hq => List.mem_append_right _ hq, hstands⟩

/-! ### Files of the project -/

namespace WorksOn

variable (hw : e.WorksOn s)
include hw

/-- A file of the selection leads somewhere. -/
lemma leads_picked {f : Text} (hf : e.Picks s f) : s.fs.Leads s.root (segments f) := by
  refine hw.project.leads (hw.selected f hf.1).areNames ?_
  rw [hf.2.kind?]
  rfl

/-- A file of a scan is ordinary, and leads somewhere. -/
lemma scanned_spec {names : List Text} (hn : AreNames names) {scan : DirectoryScan}
    (hscan : s.scan? (ofSegments names) = some scan) {f : Text} (hf : f ∈ scan.files) :
    IsOrdinary f ∧ s.fs.Leads s.root (segments f) ∧
      ∀ rest, rest ≠ [] → AreNames (segments f ++ rest) →
        s.fs.kind? (inside s.root (segments f ++ rest)) = none := by
  have hsurvey := Scanner.surveys_of_scan? hw.project hn hscan
  obtain ⟨rel, hreach, rfl⟩ := (hsurvey.mem_files f).1 hf
  have hnames := hreach.areNames hw.project hn
  have hsegs : segments (ofSegments (names ++ rel)) = names ++ rel :=
    segments_ofSegments (by simp [hreach.ne_nil]) hnames
  rw [hsegs]
  have hfrom : s.fs.Leads s.root names := by
    refine hw.project.leads hn ?_
    rw [hsurvey.directory]
    rfl
  exact ⟨hw.apart.isOrdinary hw.project hw.ordinary hreach hn hsurvey.clear, hfrom.reaches hreach,
    fun rest hrest hall => hreach.not_above hw.project hrest hall⟩

/-- **A file of a scan whose key is that of a selected file** is that file. -/
lemma eq_of_key_eq {names : List Text} (hn : AreNames names) {scan : DirectoryScan}
    (hscan : s.scan? (ofSegments names) = some scan) {f g : Text} (hf : f ∈ scan.files)
    (hg : e.Picks s g) (hkey : s.policy.key g = s.policy.key f) : g = f := by
  obtain ⟨hord, hleads, -⟩ := hw.scanned_spec hn hscan hf
  exact hw.apart.eq_of_key_eq (hw.selected g hg.1).isPlain hord.isPlain (hw.leads_picked hg)
    hleads hkey

/-- Selected paths of one key are the same. -/
lemma eq_of_selected {f g : Text} (hf : f ∈ e.selection) (hg : g ∈ e.selection)
    (hkey : s.policy.key f = s.policy.key g) : f = g :=
  List.inj_on_of_nodup_map hw.keys_nodup hf hg hkey

end WorksOn

/-! ### Single files -/

/-- What the pattern of a file matches in the project begins with what is compared alike with the
file. -/
lemma findsBy_file {policy : CasePolicy} {path f : Text} (hpath : IsOrdinary path) (hf : IsTame f)
    (hfind : Pattern.findsBy policy (Pattern.escapeLiteral path) f = true) :
    ∃ above below, segments f = above ++ below ∧
      above.map policy.key = (segments path).map policy.key := by
  have hplain : IsPlain f := hf.areNames
  obtain ⟨behind, heq, hgoes⟩ := ((Pattern.findsBy_escapeLiteral policy hpath).2 f).1 hfind
  rw [Pattern.plainPath_of_isPlain hplain.key] at heq
  rcases hgoes with rfl | hslash | rfl
  · have hsegs := congrArg segments (heq.trans (List.append_nil _))
    rw [segments_key, segments_key] at hsegs
    exact ⟨segments f, [], (List.append_nil _).symm, hsegs⟩
  · have hcons : behind = .of '/' :: behind.tail := List.eq_cons_of_mem_head? (by rw [hslash]; rfl)
    have hstarts : Text.startsWith (policy.key f) (policy.key path ++ [.of '/']) = true := by
      rw [Text.startsWith_iff, heq, hcons]
      exact ⟨behind.tail, by simp⟩
    obtain ⟨above, below, hsplit, -, habove⟩ := startsWith_key_iff.1 hstarts
    exact ⟨above, below, hsplit, habove⟩
  · -- the path would end with a line feed
    have hlast : (policy.key f).getLast? = some (.of '\n') := by rw [heq, List.getLast?_concat]
    exact absurd (policy.getLast?_key (by decide) hlast) hf.getLast?_ne_feed

/-- **A file of the selection** accounts for itself. -/
lemma Accounts.file (hw : e.WorksOn s) {f : Text} (hf : e.Picks s f) :
    e.Accounts s [Pattern.escapeLiteral f] [s.policy.key f] := by
  have hord := hw.selected f hf.1
  have htext : Pattern.escapeLiteral f = (Glob.file f).text := (Glob.text_file f).symm
  obtain ⟨hselecting, hfinds⟩ := Pattern.findsBy_escapeLiteral s.policy hord
  have hwalk : Walk.files s.fs s.ignore s.root f = [f] := by
    have hall : Walk.files s.fs s.ignore s.root (ofSegments (segments f)) =
        [ofSegments (segments f)] :=
      Walk.files_of_isFile (segments_ne_nil f) hord.areNames hf.2.kind?
    rwa [ofSegments_segments] at hall
  have hadmits : e.Admits s [Pattern.escapeLiteral f] (.file f) := {
    proper := hord
    selecting := htext ▸ hselecting
    sound := fun _ f' hf' => by
      have hmem : f' ∈ Walk.files s.fs s.ignore s.root f := hf'.1
      rw [hwalk, List.mem_singleton] at hmem
      exact .inl (hmem ▸ hf.1)
    chosen := fun _ => hf
    scanned := fun hgen => by cases hgen
    enough := fun _ hgen => by cases hgen }
  constructor
  · intro p hp
    rw [List.mem_singleton.1 hp]
    exact .inl ⟨.file f, htext, hadmits⟩
  · intro f' hf' hkey
    obtain rfl : f' = f := hw.eq_of_selected hf'.1 hf.1 (List.mem_singleton.1 hkey)
    refine ⟨.file f', by rw [← htext]; exact List.mem_singleton_self _, hadmits, ?_, ?_⟩
    · change f' ∈ Walk.files s.fs s.ignore s.root f'
      rw [hwalk]
      exact List.mem_singleton_self f'
    · rw [← htext, hfinds]
      exact ⟨[], by rw [Pattern.plainPath_of_isPlain hord.isPlain.key, List.append_nil], .inl rfl⟩

/-- A selected path that is no file has no file to account for. -/
lemma Accounts.missing (hw : e.WorksOn s) {path : Text} (h : e.Misses s path) :
    e.Accounts s [Pattern.escapeLiteral path] [s.policy.key path] := by
  constructor
  · intro p hp
    exact .inr (.inr ⟨path, List.mem_singleton.1 hp, h⟩)
  · intro f hf hkey
    obtain rfl : f = path := hw.eq_of_selected hf.1 h.selected (List.mem_singleton.1 hkey)
    exact absurd hf.2 h.missing

/-! ### Scans -/

/-- The path of a pattern of a run consists of names. -/
lemma exists_names {g : Glob} (h : g.IsProper) :
    ∃ names, AreNames names ∧ g.base = ofSegments names := by
  rcases h.base_eq_nil_or with ⟨extension, rfl⟩ | ht
  · exact ⟨[], areNames_nil, rfl⟩
  · exact ⟨segments g.base, ht.areNames, (ofSegments_segments g.base).symm⟩

/-- **A file of a scan that is not selected may be excluded.** -/
lemma spares_of_scan (hw : e.WorksOn s) {names : List Text} (hn : AreNames names)
    {scan : DirectoryScan} (hscan : s.scan? (ofSegments names) = some scan) {m : Text}
    (hm : m ∈ scan.files) (hnot : m ∉ e.selection) : e.Spares s m := by
  obtain ⟨hord, hleads, hnothing⟩ := hw.scanned_spec hn hscan hm
  refine ⟨hord, fun f hf => ?_⟩
  rw [Bool.eq_false_iff]
  intro hfind
  have hford := hw.selected f hf.1
  have hfnames : AreNames (segments f) := hford.areNames
  have hfleads := hw.leads_picked hf
  obtain ⟨above, below, hsplit, hkeys⟩ := findsBy_file hord hford.toIsTame hfind
  have hkind := hf.2.kind?
  rw [hsplit] at hfnames hfleads hkind
  obtain rfl : above = segments m := hw.apart.eq_of_keys_eq hfnames.left hord.areNames
    (hfleads.left (List.prefix_append _ _)) hleads hkeys
  by_cases hbelow : below = []
  · rw [hbelow, List.append_nil] at hsplit
    rw [← ofSegments_segments m, ← hsplit, ofSegments_segments] at hnot
    exact hnot hf.1
  · -- the file would have a file above it
    rw [hnothing below hbelow hfnames] at hkind
    cases hkind

end Engine

/-! ### Checks -/

/-- **What the check of a pattern says**: among the files of the scan, it matches some with the keys
of the expected ones, which are selected, and no others but selected and excluded ones. -/
theorem Coverage.confirms_spec {policy : CasePolicy} {selection : List Text} {pattern : Text}
    {scan : DirectoryScan} {expected excludes : List Text}
    (halone : Pattern.alternatives pattern = [pattern])
    (hmark : (policy.key pattern).head? ≠ some (.of '!'))
    (hexcludes : ∀ x ∈ excludes, ∀ a ∈ Pattern.alternatives x, Pattern.IsSelecting (policy.key a))
    (h : (Coverage.ofSelection policy selection).confirms pattern scan expected excludes = true) :
    Pattern.IsSelecting (policy.key pattern) ∧
      (∀ f ∈ expected, ∃ k ∈ scan.files, policy.key k = policy.key f ∧
        Pattern.findsBy policy pattern k = true ∧ policy.key k ∈ selection.map policy.key) ∧
      ∀ f ∈ scan.files, Pattern.findsBy policy pattern f = true →
        policy.key f ∈ selection.map policy.key ∨
          ∃ x ∈ excludes, ∃ a ∈ Pattern.alternatives x, Pattern.findsBy policy a f = true := by
  unfold confirms verify at h
  have hpolicy : (Coverage.ofSelection policy selection).policy = policy := rfl
  simp only [hpolicy] at h
  cases hm : Matcher.ofBraced policy pattern with
  | error err =>
    rw [hm] at h
    cases h
  | ok m =>
    rw [hm] at h
    rw [Matcher.ofBraced, halone] at hm
    obtain ⟨hselecting, haccepts⟩ := Matcher.accepts_of_ofPatterns hm (by simpa using hmark)
    obtain ⟨kept, hkept, -, hmem⟩ := Expand.withoutExcluded_eq_ok hexcludes
      (scan.files.filter m.accepts)
    have himplied : ∀ f, f ∈ kept ↔ (f ∈ scan.files ∧ Pattern.findsBy policy pattern f = true) ∧
        ∀ x ∈ excludes, ∀ a ∈ Pattern.alternatives x, Pattern.findsBy policy a f = false := by
      intro f
      rw [hmem, List.mem_filter, haccepts, List.any_cons, List.any_nil, Bool.or_false]
    simp only [Except.mapError, bind, Except.bind, hkept, pure, Except.pure] at h
    simp only [Bool.and_eq_true, List.all_eq_true, List.contains_iff_mem] at h
    obtain ⟨hexpected, hselected⟩ := h
    have hsel : ∀ f ∈ kept, policy.key f ∈ selection.map policy.key := by
      intro f hf
      simpa [isSelected, ofSelection] using hselected f hf
    refine ⟨hselecting pattern List.mem_cons_self, fun f hf => ?_, fun f hf hfind => ?_⟩
    · obtain ⟨k, hk, hkey⟩ := List.mem_map.1 (hexpected f hf)
      exact ⟨k, ((himplied k).1 hk).1.1, hkey, ((himplied k).1 hk).1.2, hsel k hk⟩
    · by_contra hno
      rw [not_or] at hno
      refine hno.1 (hsel f ((himplied f).2 ⟨⟨hf, hfind⟩, fun x hx a ha => ?_⟩))
      rw [Bool.eq_false_iff]
      exact fun hfind => hno.2 ⟨x, hx, a, ha, hfind⟩

namespace Engine

variable {e : Engine} {s : Scanner}

/-- **A confirmed pattern accounts for its files**, together with the exclusions of missing ones. -/
theorem accounts_of_confirms (hw : e.WorksOn s) {g : Glob} (hg : g.IsProper)
    (hgen : g.isFile = false) {scan : DirectoryScan} (hscan : e.scan? g.base = some scan)
    {expected : List Text} (hsub : expected.Sublist scan.files)
    (hmin : e.context.minFiles ≤ expected.length)
    (missing : List Text) (hmissing : ∀ m ∈ missing, m ∈ scan.files ∧ m ∉ e.selection)
    (hconfirms : e.coverage.confirms g.text scan expected
      (missing.map Pattern.escapeLiteral) = true) :
    e.Accounts s (g.text :: missing.map exclusion) (expected.map s.policy.key) := by
  obtain ⟨names, hn, hbase⟩ := exists_names hg
  rw [hw.scan?_eq] at hscan
  have hscan' : s.scan? (ofSegments names) = some scan := hbase ▸ hscan
  have hsurvey := Scanner.surveys_of_scan? hw.project hn hscan'
  have hwalk : ∀ f, f ∈ Walk.files s.fs s.ignore s.root g.base ↔ f ∈ scan.files := by
    intro f
    rw [hbase]
    exact hsurvey.mem_walk hw.project hn f
  have hspares : ∀ m ∈ missing, e.Spares s m := fun m hm =>
    spares_of_scan hw hn hscan' (hmissing m hm).1 (hmissing m hm).2
  have halone : ∀ m,
      Pattern.alternatives (Pattern.escapeLiteral m) = [Pattern.escapeLiteral m] :=
    fun m => (Pattern.spells_escapeLiteral m).alternatives_eq
  have hexcludes : ∀ x ∈ missing.map Pattern.escapeLiteral, ∀ a ∈ Pattern.alternatives x,
      Pattern.IsSelecting (s.policy.key a) := by
    intro x hx a ha
    obtain ⟨m, hm, rfl⟩ := List.mem_map.1 hx
    rw [halone, List.mem_singleton] at ha
    exact ha ▸ (Pattern.findsBy_escapeLiteral s.policy (hspares m hm).ordinary).1
  have hmark : (s.policy.key g.text).head? ≠ some (.of '!') := fun h =>
    hg.head?_ne (by decide) (s.policy.head?_key (by decide) h)
  rw [hw.coverage_eq] at hconfirms
  obtain ⟨hselecting, hexpected, hfound⟩ :=
    Coverage.confirms_spec hg.alternatives_text hmark hexcludes hconfirms
  -- files of the scan are told apart by their keys
  have hselected : (∀ p ∈ e.selection, e.Picks s p) → ∀ f ∈ scan.files,
      s.policy.key f ∈ e.selection.map s.policy.key → f ∈ e.selection := by
    intro hall f hf hkey
    obtain ⟨k, hk, hkey⟩ := List.mem_map.1 hkey
    exact hw.eq_of_key_eq hn hscan' hf (hall k hk) hkey ▸ hk
  have hfinds : ∀ f ∈ expected, e.Picks s f → Pattern.findsBy s.policy g.text f = true := by
    intro f hf hpick
    obtain ⟨k, hk, hkey, hfind, -⟩ := hexpected f hf
    exact hw.eq_of_key_eq hn hscan' hk hpick hkey.symm ▸ hfind
  have hadmits : e.Admits s (g.text :: missing.map exclusion) g := {
    proper := hg
    selecting := hselecting
    sound := fun hall f hf => by
      have hscanned := (hwalk f).1 hf.1
      refine (hfound f hscanned hf.2).imp (hselected hall f hscanned) ?_
      rintro ⟨x, hx, a, ha, hfind⟩
      obtain ⟨m, hm, rfl⟩ := List.mem_map.1 hx
      rw [halone, List.mem_singleton] at ha
      exact ⟨m, List.mem_cons_of_mem _ (List.mem_map_of_mem hm), ha ▸ hfind⟩
    chosen := fun hfile => by
      rw [hgen] at hfile
      cases hfile
    scanned := fun _ => ⟨scan, hscan⟩
    enough := fun hall _ => by
      refine ⟨expected, hsurvey.nodup.sublist hsub, hmin, fun f hf => ?_⟩
      obtain ⟨k, -, hkey, -, hsel⟩ := hexpected f hf
      have hf' := hselected hall f (hsub.subset hf) (hkey ▸ hsel)
      exact ⟨hf', hfinds f hf (hall f hf')⟩ }
  constructor
  · intro p hp
    rcases List.mem_cons.1 hp with rfl | hp
    · exact .inl ⟨g, rfl, hadmits⟩
    · obtain ⟨m, hm, rfl⟩ := List.mem_map.1 hp
      exact .inr (.inl ⟨m, rfl, hspares m hm⟩)
  · intro f hf hkey
    obtain ⟨k, hk, hkey⟩ := List.mem_map.1 hkey
    obtain rfl : f = k := hw.eq_of_key_eq hn hscan' (hsub.subset hk) hf hkey.symm
    exact ⟨g, List.mem_cons_self, hadmits, (hwalk f).2 (hsub.subset hk), hfinds f hk hf⟩

end Engine

end GlobPreset
