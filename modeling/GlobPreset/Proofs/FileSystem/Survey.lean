import GlobPreset.Proofs.FileSystem.Reach
import GlobPreset.Proofs.Text.Order

/-!
# What a scan tells about a walk

A scan that is complete tells all about the walk through its directory: the directory is clear, and
the files of the scan are those that the walk reaches, each once.

## Main definitions

* `Scanner.Surveys` — a scan tells all about the walk through some directory.

## Main results

* `Scanner.through_tally` — what is found among the entries of a directory.
* `Scanner.surveys_of_visit` — a complete scan surveys its directory.
* `Scanner.Surveys.mem_walk` — the files of a scan are the files of the walk.
-/

set_option autoImplicit false

namespace GlobPreset

open GlobPreset.Path

/-- The entries of a directory are put in order of name. -/
lemma FileSystem.entryOrder_pairwise (entries : List Entry) :
    (sortBy entryOrder entries).Pairwise (fun a b => entryOrder a b = true) :=
  sortBy_pairwise (fun a b => Text.le_total a.name b.name)
    (fun a b c => @Text.le_trans a.name b.name c.name) entries

namespace Scanner

variable (s : Scanner)

/-! ### Entries -/

/-- The files that an entry of the directory adds to its scan. -/
def contribution (child : Text → Result) (directory : Text) (e : Entry) : List Text :=
  match s.inspect directory e with
  | .file => [join directory e.name]
  | .subdirectory => (((child (join directory e.name)).scan).map DirectoryScan.files).getD []
  | _ => []

/-- The file directly inside the directory that an entry is, with its extension. -/
def directPair? (directory : Text) (e : Entry) : Option (Text × Text) :=
  if s.inspect directory e = .file then some (extension e.name, join directory e.name) else none

variable {s}

/-- What a scan counts as a file is a file whose name is not ignored. -/
lemma inspect_eq_file {directory : Text} {e : Entry} (h : s.inspect directory e = .file) :
    e.kind = .file ∧ s.ignore.ignoresFile e.name = false := by
  unfold inspect isIgnored at h
  cases hk : e.kind with
  | directory =>
    simp only [hk] at h
    split at h
    · cases h
    · split at h
      · cases h
      · split at h <;> cases h
  | file =>
    refine ⟨rfl, ?_⟩
    simp only [hk] at h
    split at h
    · cases h
    · rename_i hig
      simpa using hig
  | other =>
    simp only [hk] at h
    split at h
    · cases h
    · split at h <;> cases h

/-- What a scan counts as a subdirectory is a directory whose name is not ignored. -/
lemma inspect_eq_subdirectory {directory : Text} {e : Entry}
    (h : s.inspect directory e = .subdirectory) :
    e.kind = .directory ∧ s.ignore.ignoresDirectory e.name = false := by
  unfold inspect isIgnored at h
  cases hk : e.kind with
  | directory =>
    refine ⟨rfl, ?_⟩
    simp only [hk] at h
    split at h
    · cases h
    · rename_i hig
      simpa using hig
  | file =>
    simp only [hk] at h
    split at h
    · cases h
    · split at h <;> cases h
  | other =>
    simp only [hk] at h
    split at h
    · cases h
    · split at h <;> cases h

/-- An entry that does not count is left out by its name. -/
lemma inspect_eq_ignored {directory : Text} {e : Entry} (h : s.inspect directory e = .ignored) :
    s.isIgnored e = true := by
  unfold inspect at h
  split at h
  · assumption
  · split at h
    · cases h
    · cases hk : e.kind <;> rw [hk] at h
      · dsimp only at h
        split at h <;> cases h
      · cases h
      · cases h

/-- **What is found among the entries of a directory** that is not unknown. -/
lemma through_tally {child : Text → Result} {directory : Text} :
    ∀ {entries : List Entry} {t : Tally},
      (s.through child directory entries).tally = some t →
      t.files = entries.flatMap (s.contribution child directory) ∧
      t.direct = entries.filterMap (s.directPair? directory) ∧
      ∀ e ∈ entries, s.inspect directory e = .ignored ∨ s.inspect directory e = .file ∨
        (s.inspect directory e = .subdirectory ∧
          ((child (join directory e.name)).scan).isSome)
  | [], t, h => by
    cases h
    exact ⟨rfl, rfl, by simp⟩
  | e :: rest, t, h => by
    cases hi : s.inspect directory e with
    | ignored =>
      rw [through, hi] at h
      obtain ⟨hfiles, hdirect, hall⟩ := through_tally h
      refine ⟨?_, ?_, ?_⟩
      · simpa [contribution, hi] using hfiles
      · simpa [directPair?, hi] using hdirect
      · exact List.forall_mem_cons.2 ⟨.inl hi, hall⟩
    | unknown warning =>
      rw [through, hi] at h
      cases h
    | file =>
      rw [through, hi] at h
      obtain ⟨t', ht', rfl⟩ := Option.map_eq_some_iff.1 h
      obtain ⟨hfiles, hdirect, hall⟩ := through_tally ht'
      refine ⟨?_, ?_, ?_⟩
      · simp [contribution, hi, hfiles]
      · simp [directPair?, hi, hdirect]
      · exact List.forall_mem_cons.2 ⟨.inr (.inl hi), hall⟩
    | subdirectory =>
      rw [through, hi] at h
      cases hsub : (child (join directory e.name)).scan with
      | none =>
        simp [hsub] at h
      | some sub =>
        simp only [hsub] at h
        obtain ⟨t', ht', rfl⟩ := Option.map_eq_some_iff.1 h
        obtain ⟨hfiles, hdirect, hall⟩ := through_tally ht'
        refine ⟨?_, ?_, ?_⟩
        · simp [contribution, hi, hsub, hfiles]
        · simpa [directPair?, hi] using hdirect
        · exact List.forall_mem_cons.2 ⟨.inr (.inr ⟨hi, by rw [hsub]; rfl⟩), hall⟩

/-- A file that is not ignored counts as one, in a directory that is not unknown. -/
lemma inspect_of_file {directory : Text} {e : Entry} {P : Prop} (hkind : e.kind = .file)
    (hkept : s.ignore.ignoresFile e.name = false)
    (h : s.inspect directory e = .ignored ∨ s.inspect directory e = .file ∨
      (s.inspect directory e = .subdirectory ∧ P)) : s.inspect directory e = .file := by
  rcases h with h | h | ⟨h, -⟩
  · have := inspect_eq_ignored h
    simp [isIgnored, hkind, hkept] at this
  · exact h
  · rw [(inspect_eq_subdirectory h).1] at hkind
    cases hkind

/-- A directory that is not ignored is scanned, in a directory that is not unknown. -/
lemma inspect_of_directory {directory : Text} {e : Entry} {P : Prop}
    (hkind : e.kind = .directory) (hkept : s.ignore.ignoresDirectory e.name = false)
    (h : s.inspect directory e = .ignored ∨ s.inspect directory e = .file ∨
      (s.inspect directory e = .subdirectory ∧ P)) :
    s.inspect directory e = .subdirectory ∧ P := by
  rcases h with h | h | h
  · have := inspect_eq_ignored h
    simp [isIgnored, hkind, hkept] at this
  · rw [(inspect_eq_file h).1] at hkind
    cases hkind
  · exact h

/-- The order of the entries of a directory is that of their paths. -/
lemma le_join (directory : Text) {a b : Text} :
    Text.le (join directory a) (join directory b) = Text.le a b := by
  unfold join
  split
  · rfl
  · rw [Text.le_append_left]
    simp [Text.le]

/-- The files directly inside a directory are among its files. -/
lemma directPairs_sublist (child : Text → Result) (directory : Text) (entries : List Entry) :
    ((entries.filterMap (s.directPair? directory)).map Prod.snd).Sublist
      (entries.flatMap (s.contribution child directory)) := by
  induction entries with
  | nil => exact List.Sublist.refl _
  | cons e rest ih =>
    rw [List.flatMap_cons]
    by_cases h : s.inspect directory e = .file
    · simpa [directPair?, contribution, h] using ih
    · have hnone : s.directPair? directory e = none := if_neg h
      rw [List.filterMap_cons_none hnone]
      exact ih.trans (List.sublist_append_right _ _)

/-- The files directly inside a directory stand in the order of its entries. -/
lemma directPairs_pairwise (directory : Text) {entries : List Entry}
    (h : entries.Pairwise (fun a b => FileSystem.entryOrder a b = true)) :
    ((entries.filterMap (s.directPair? directory)).map Prod.snd).Pairwise
      (fun f g => Text.le f g = true) := by
  rw [List.pairwise_map, List.pairwise_filterMap]
  refine h.imp fun {a b} hab p hp q hq => ?_
  obtain ⟨-, hp⟩ := Option.ite_none_right_eq_some.1 hp
  obtain ⟨-, hq⟩ := Option.ite_none_right_eq_some.1 hq
  cases hp
  cases hq
  exact (le_join directory).trans hab

/-! ### Directories -/

/-- A scan tells all about the walk through the directory of the given names. -/
structure Surveys (s : Scanner) (fuel : Nat) (names : List Text) (scan : DirectoryScan) :
    Prop where
  /-- The names lead to a directory. -/
  directory : s.fs.kind? (inside s.root names) = some .directory
  /-- A walk through it never turns back. -/
  clear : s.fs.Clear s.policy s.ignore s.root fuel names
  /-- The files are those that a walk reaches. -/
  mem_files : ∀ f, f ∈ scan.files ↔
    ∃ rel, s.fs.Reaches s.ignore s.root names rel ∧ f = ofSegments (names ++ rel)
  /-- Every file is there once. -/
  nodup : scan.files.Nodup
  /-- The groups are the files of one extension directly inside the directory, where there are
  some. -/
  direct : ∀ {ext group}, (ext, group) ∈ scan.direct ↔ group ≠ [] ∧
    group = scan.files.filter (fun f => parent f == ofSegments names && extension f == ext)

/-- A scan is what is found among the entries of a directory that is not misplaced. -/
lemma visit_spec {fuel : Nat} {directory : Text} {scan : DirectoryScan}
    (h : (s.visit (fuel + 1) directory).scan = some scan) :
    s.fs.kind? (absolute s.root directory) = some .directory ∧
      (if directory.isEmpty then none else s.misplaced? directory) = none ∧
      ∃ entries t, s.fs.list (absolute s.root directory) = .ok entries ∧
        (s.through (s.visit fuel) directory (sortBy FileSystem.entryOrder entries)).tally = some t ∧
        scan = s.ofTally directory t := by
  rw [visit] at h
  dsimp only at h
  split at h
  · cases h
  rename_i hdir
  split at h
  · cases h
  rename_i hmis
  refine ⟨by simpa [FileSystem.isDirectory] using hdir, hmis, ?_⟩
  cases hlist : s.fs.list (absolute s.root directory) with
  | error e => simp [FileSystem.sortedList, hlist, Except.map] at h
  | ok entries =>
    simp only [FileSystem.sortedList, hlist, Except.map] at h
    obtain ⟨t, ht, rfl⟩ := Option.map_eq_some_iff.1 h
    exact ⟨entries, t, rfl, ht, rfl⟩

/-- A directory with a scan is in place and listed, and the scan is what is found in it. -/
lemma visit_eq_some (hp : s.fs.IsProject s.root) {fuel : Nat} {names : List Text}
    {scan : DirectoryScan} (hn : AreNames names)
    (h : (s.visit (fuel + 1) (ofSegments names)).scan = some scan) :
    s.fs.kind? (inside s.root names) = some .directory ∧
      FileSystem.InPlaceBy s.policy s.fs s.root names ∧
      ∃ entries t, s.fs.list (inside s.root names) = .ok entries ∧
        (s.through (s.visit fuel) (ofSegments names)
          (sortBy FileSystem.entryOrder entries)).tally = some t ∧
        scan = s.ofTally (ofSegments names) t := by
  obtain ⟨hdir, hmis, hrest⟩ := visit_spec h
  rw [absolute_ofSegments hn] at hdir hrest
  exact ⟨hdir, FileSystem.inPlaceBy_of_misplaced? hp.slash_mem hn hmis, hrest⟩

/-- The files that an entry adds to a scan are those that a walk reaches through it, each once. -/
lemma contribution_spec {fuel : Nat} {names : List Text} {entries : List Entry} {e : Entry}
    (hn : AreNames names) (hlist : s.fs.list (inside s.root names) = .ok entries)
    (he : e ∈ entries)
    (hsub : ∀ {sub}, (s.visit fuel (ofSegments (names ++ [e.name]))).scan = some sub →
      s.Surveys fuel (names ++ [e.name]) sub) :
    (s.contribution (s.visit fuel) (ofSegments names) e).Nodup ∧
      ∀ f ∈ s.contribution (s.visit fuel) (ofSegments names) e,
        ∃ rel, s.fs.Reaches s.ignore s.root names (e.name :: rel) ∧
          f = ofSegments (names ++ e.name :: rel) := by
  unfold contribution
  rw [join_ofSegments hn]
  cases hi : s.inspect (ofSegments names) e with
  | ignored => simp
  | unknown warning => simp
  | file =>
    obtain ⟨hkind, hkept⟩ := inspect_eq_file hi
    refine ⟨by simp, fun f hf => ⟨[], .file hlist he hkind hkept, List.mem_singleton.1 hf⟩⟩
  | subdirectory =>
    obtain ⟨hkind, hkept⟩ := inspect_eq_subdirectory hi
    cases hscan : (s.visit fuel (ofSegments (names ++ [e.name]))).scan with
    | none => simp
    | some sub =>
      have hsurvey := hsub hscan
      refine ⟨hsurvey.nodup, fun f hf => ?_⟩
      obtain ⟨rel, hrel, rfl⟩ := (hsurvey.mem_files f).1 hf
      exact ⟨rel, .inner hlist he hkind hkept hrel, by simp⟩

/-- Entries of different names add different files. -/
lemma nodup_contributions {child : Text → Result} {names : List Text} {entries : List Entry}
    (hnames : (entries.map Entry.name).Nodup)
    (h : ∀ e ∈ entries, (s.contribution child (ofSegments names) e).Nodup ∧
      ∀ f ∈ s.contribution child (ofSegments names) e, ∃ rel,
        AreNames (names ++ e.name :: rel) ∧ f = ofSegments (names ++ e.name :: rel)) :
    (entries.flatMap (s.contribution child (ofSegments names))).Nodup := by
  rw [List.nodup_flatMap]
  refine ⟨fun e he => (h e he).1, ?_⟩
  have hpair : entries.Pairwise (fun e e' => e.name ≠ e'.name) := List.pairwise_map.1 hnames
  refine List.Pairwise.imp_of_mem (fun {e e'} he he' hne => ?_) hpair
  intro f hf hf'
  obtain ⟨rel, hrel, rfl⟩ := (h e he).2 f hf
  obtain ⟨rel', hrel', heq⟩ := (h e' he').2 _ hf'
  have hlist := List.append_cancel_left (ofSegments_injective hrel hrel' heq)
  exact hne (List.cons.inj hlist).1

/-- **The files directly inside a directory that have one extension** are those files of its scan,
in order. -/
lemma valuesOf_direct (hp : s.fs.IsProject s.root) {names : List Text} {entries : List Entry}
    {t : Tally} (hn : AreNames names) (hlist : s.fs.list (inside s.root names) = .ok entries)
    (hdirect : t.direct = (sortBy FileSystem.entryOrder entries).filterMap
      (s.directPair? (ofSegments names)))
    (hsublist : (t.direct.map Prod.snd).Sublist t.files) (hnodup : t.files.Nodup)
    (hmem : ∀ f, f ∈ t.files ↔
      ∃ rel, s.fs.Reaches s.ignore s.root names rel ∧ f = ofSegments (names ++ rel))
    (hall : ∀ e ∈ entries, e.kind = .file → s.ignore.ignoresFile e.name = false →
      s.inspect (ofSegments names) e = .file) (ext : Text) :
    valuesOf ext t.direct = (Text.sort t.files).filter
      (fun f => parent f == ofSegments names && extension f == ext) := by
  have hvalues : (valuesOf ext t.direct).Sublist (t.direct.map Prod.snd) :=
    List.filter_sublist.map _
  have hordered := directPairs_pairwise (s := s) (ofSegments names)
    (FileSystem.entryOrder_pairwise entries)
  rw [← hdirect] at hordered
  refine Text.eq_of_pairwise_of_mem_iff (hordered.sublist hvalues)
    ((Text.sort_pairwise _).filter _) ((hnodup.sublist hsublist).sublist hvalues)
    ((Text.nodup_sort.2 hnodup).filter _) fun f => ?_
  rw [mem_valuesOf, List.mem_filter, Text.mem_sort]
  simp only [Bool.and_eq_true, beq_iff_eq]
  constructor
  · intro hpair
    refine ⟨hsublist.subset (List.mem_map_of_mem hpair), ?_⟩
    rw [hdirect] at hpair
    obtain ⟨e, he, hpair⟩ := List.mem_filterMap.1 hpair
    obtain ⟨-, hpair⟩ := Option.ite_none_right_eq_some.1 hpair
    cases hpair
    have hname := hp.isName hn hlist (mem_sortBy.1 he)
    rw [join_ofSegments hn]
    exact ⟨parent_ofSegments_concat names hname.noSlash,
      extension_ofSegments_concat names hname.noSlash⟩
  · rintro ⟨hf, hparent, rfl⟩
    obtain ⟨rel, hrel, rfl⟩ := (hmem f).1 hf
    have hnames := hrel.areNames hp hn
    -- nothing but a name stands behind the directory
    obtain ⟨part, name, rfl⟩ := (List.eq_nil_or_concat' rel).resolve_left hrel.ne_nil
    rw [← List.append_assoc] at hparent hnames ⊢
    have hslash := (hnames.right name (List.mem_singleton_self name)).noSlash
    rw [parent_ofSegments_concat _ hslash] at hparent
    have hpart : part = [] := by
      simpa using ofSegments_injective hnames.left hn hparent
    subst hpart
    rw [List.append_nil, extension_ofSegments_concat names hslash, hdirect]
    rw [List.nil_append] at hrel
    obtain ⟨e, he, rfl, hkind, hkept⟩ := hrel.of_singleton hlist
    refine List.mem_filterMap.2 ⟨e, mem_sortBy.2 he, ?_⟩
    rw [directPair?, if_pos (hall e he hkind hkept), join_ofSegments hn]

/-- **A complete scan surveys its directory.**

**Proof sketch.** Induction on the fuel. A directory with a scan is in place and listed, each of its
entries that counts is a file or a directory with a scan, and by induction the files of such a
directory are those that a walk reaches through it. Entries have different names, so no file
comes from two of them. -/
theorem surveys_of_visit (hp : s.fs.IsProject s.root) :
    ∀ {fuel : Nat} {names : List Text} {scan : DirectoryScan}, AreNames names →
      (s.visit fuel (ofSegments names)).scan = some scan → s.Surveys fuel names scan := by
  intro fuel
  induction fuel with
  | zero =>
    intro names scan _ h
    cases h
  | succ fuel ih =>
    intro names scan hn h
    obtain ⟨hdir, hplace, entries, t, hlist, ht, rfl⟩ := visit_eq_some hp hn h
    obtain ⟨hfiles, hdirect, hall⟩ := through_tally ht
    have hinner : ∀ e ∈ entries, AreNames (names ++ [e.name]) := fun e he =>
      hn.append (areNames_singleton (hp.isName hn hlist he))
    have hspec := fun e (he : e ∈ entries) =>
      contribution_spec hn hlist he (fun hscan => ih (hinner e he) hscan)
    -- every directory that is not ignored has a scan
    have hsub : ∀ e ∈ entries, e.kind = .directory →
        s.ignore.ignoresDirectory e.name = false →
        ∃ sub, (s.visit fuel (ofSegments (names ++ [e.name]))).scan = some sub ∧
          s.inspect (ofSegments names) e = .subdirectory := by
      intro e he hkind hkept
      obtain ⟨hi, hsome⟩ := inspect_of_directory hkind hkept (hall e (mem_sortBy.2 he))
      obtain ⟨sub, hsub⟩ := Option.isSome_iff_exists.1 hsome
      exact ⟨sub, by rw [← hsub, join_ofSegments hn], hi⟩
    have hmem : ∀ f, f ∈ t.files ↔
        ∃ rel, s.fs.Reaches s.ignore s.root names rel ∧ f = ofSegments (names ++ rel) := by
      intro f
      rw [hfiles, List.mem_flatMap]
      constructor
      · rintro ⟨e, he, hf⟩
        obtain ⟨rel, hrel, rfl⟩ := (hspec e (mem_sortBy.1 he)).2 f hf
        exact ⟨e.name :: rel, hrel, rfl⟩
      · rintro ⟨rel, hrel, rfl⟩
        cases hrel with
        | @file _ entries' e hlist' he hkind hkept =>
          obtain rfl : entries = entries' := by simpa [hlist] using hlist'
          have hi := inspect_of_file hkind hkept (hall e (mem_sortBy.2 he))
          exact ⟨e, mem_sortBy.2 he, by simp [contribution, hi, join_ofSegments hn]⟩
        | @inner _ entries' e rel hlist' he hkind hkept hrel =>
          obtain rfl : entries = entries' := by simpa [hlist] using hlist'
          obtain ⟨sub, hscan, hi⟩ := hsub e he hkind hkept
          have hf := ((ih (hinner e he) hscan).mem_files _).2 ⟨rel, hrel, rfl⟩
          exact ⟨e, mem_sortBy.2 he, by
            simpa [contribution, hi, join_ofSegments hn, hscan] using hf⟩
    have hnodup : t.files.Nodup := by
      rw [hfiles]
      refine nodup_contributions (((sortBy_perm _ _).map Entry.name).nodup_iff.2
        (hp.nodup hn hlist)) fun e he => ⟨(hspec e (mem_sortBy.1 he)).1, fun f hf => ?_⟩
      obtain ⟨rel, hrel, rfl⟩ := (hspec e (mem_sortBy.1 he)).2 f hf
      exact ⟨rel, hrel.areNames hp hn, rfl⟩
    refine ⟨hdir, ⟨hplace, entries, hlist, fun e he hkind hkept => ?_⟩, ?_, ?_, ?_⟩
    · obtain ⟨sub, hscan, -⟩ := hsub e he hkind hkept
      exact (ih (hinner e he) hscan).clear
    · exact fun f => Text.mem_sort.trans (hmem f)
    · exact Text.nodup_sort.2 hnodup
    · intro ext group
      have hsublist : (t.direct.map Prod.snd).Sublist t.files := by
        rw [hdirect, hfiles]
        exact directPairs_sublist _ _ _
      have hvalues := valuesOf_direct hp hn hlist hdirect hsublist hnodup hmem
        (fun e he hkind hkept => inspect_of_file hkind hkept (hall e (mem_sortBy.2 he))) ext
      change (ext, group) ∈ groupPairs t.direct ↔ group ≠ [] ∧ group = _
      rw [mem_groupPairs, hvalues, and_comm]
      rfl

/-- **The files of a scan are the files of the walk** through its directory. -/
theorem Surveys.mem_walk {names : List Text} {scan : DirectoryScan} (hp : s.fs.IsProject s.root)
    (hn : AreNames names) (h : s.Surveys (s.fs.depthBound + 1) names scan) (f : Text) :
    f ∈ Walk.files s.fs s.ignore s.root (ofSegments names) ↔ f ∈ scan.files := by
  rw [Walk.mem_files_of_clear hp hn h.directory h.clear, h.mem_files]

/-- The scan of a directory, asked for by its names. -/
theorem surveys_of_scan? (hp : s.fs.IsProject s.root)
    {names : List Text} {scan : DirectoryScan} (hn : AreNames names)
    (h : s.scan? (ofSegments names) = some scan) :
    s.Surveys (s.fs.depthBound + 1) names scan := by
  rw [scan?, request, dropAround_ofSegments hn] at h
  exact surveys_of_visit hp hn h

end Scanner

end GlobPreset
