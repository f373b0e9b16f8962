import GlobPreset.Proofs.Scan.Session

/-!
# Which directories have a scan

A directory of a tree in memory is unknown for reasons that can be read off the tree: it is not
where its names say, or something below it that is not ignored cannot be listed, leads out of the
project, is a link to a directory, or is no file and no directory. All other directories have a
scan, and no order of requests makes a difference to that.

## Main definitions

* `FileSystem.Contains` — listings lead from one directory to another, past no ignored name.
* `MemoryTree.IsScannable` — there is nothing at a directory or below it that makes it unknown.
* `Scanner.requestOf` — the request for the directory of given names.

## Main results

* `Scanner.isSome_visit_iff` — when a visit to a directory gives a scan.
* `MemoryTree.isBounded` — the fuel of a scanner is enough for every tree in memory.
* `MemoryTree.isSome_scan?_iff` — the directories that have a scan.
* `MemoryTree.session_iff` — **requests in a row give what a new scanner gives**, which is a scan of
  every scannable directory.

## Design

From a directory with a scan to those below it the names are followed along listings, so a relation
between names is enough. Towards the scan the induction is on the fuel: a directory that stands
where its names say is registered, and so are all that contain it, so it is less deep than there are
directories.
-/

set_option autoImplicit false

namespace GlobPreset

open GlobPreset.Path

/-! ### What a directory contains -/

/-- An entry is left out by its name. -/
def IgnoreRules.Hides (ignore : IgnoreRules) (e : Entry) : Prop :=
  e.kind = .directory ∧ ignore.ignoresDirectory e.name = true ∨
    e.kind = .file ∧ ignore.ignoresFile e.name = true

/-- Listings lead from the directory `start` to a directory, past no ignored name. -/
inductive FileSystem.Contains (fs : FileSystem) (ignore : IgnoreRules) (root : Text)
    (start : List Text) : (names : List Text) → Prop
  | self : Contains fs ignore root start start
  | inner {names : List Text} {entries : List Entry} {e : Entry}
      (h : Contains fs ignore root start names)
      (hlist : fs.list (inside root names) = .ok entries) (he : e ∈ entries)
      (hkind : e.kind = .directory) (hkept : ignore.ignoresDirectory e.name = false) :
      Contains fs ignore root start (names ++ [e.name])

/-- Nothing at a directory or below it makes it unknown. -/
structure MemoryTree.IsScannable (t : MemoryTree) (project : Text) (ignore : IgnoreRules)
    (start : List Text) : Prop where
  /-- It is a directory. -/
  directory : t.kind? (inside project start) = some .directory
  /-- It really is where its names say. -/
  inPlace : t.realNames (inside project start) = t.realNames project ++ start
  /-- No directory below refuses to be listed. -/
  readable : ∀ {names}, t.fileSystem.Contains ignore project start names →
    t.realLocation (inside project names) ∉ t.unreadable
  /-- Whatever is not ignored is a file or a directory, and if it is a link, it leads to a file of
  the project. -/
  entry : ∀ {names entries e}, t.fileSystem.Contains ignore project start names →
    t.list (inside project names) = .ok entries → e ∈ entries → ¬ ignore.Hides e →
      e.kind ≠ .other ∧ (e.isLink = true →
        e.kind ≠ .directory ∧ t.realNames project <+: t.realNames e.path)

/-! ### Positions -/

/-- **A path lies within another one** if its names continue those of the other. -/
lemma Path.isWithin_below {names root : List Text} (hn : AreNames names) (hroot : AreNames root) :
    isWithin (.of '/' :: ofSegments names) (.of '/' :: ofSegments root) [.of '/'] = true ↔
      root <+: names := by
  by_cases hnil : root = []
  · subst hnil
    have hall :
        isWithin (.of '/' :: ofSegments names) (.of '/' :: ofSegments []) [.of '/'] = true := by
      simp [isWithin, Text.dropEndWhile, Text.endsWith, Text.startsWith]
    exact iff_of_true hall List.nil_prefix
  have hlast : (.of '/' :: ofSegments root).getLast? ≠ some (.of '/') := by
    obtain ⟨c, rest, hcons⟩ := List.exists_cons_of_ne_nil (ofSegments_ne_nil hnil hroot)
    rw [List.getLast?_cons_of_ne_nil (by simp [hcons])]
    exact getLast?_ofSegments_ne hnil hroot
  have htrim : Text.dropEndWhile ([.of '/'] : Text).contains (.of '/' :: ofSegments root) =
      .of '/' :: ofSegments root := by
    refine Text.dropEndWhile_eq_self fun c hc => ?_
    have hne : c ≠ .of '/' := by
      rintro rfl
      exact hlast hc
    simpa using hne
  have hend : Text.endsWith (.of '/' :: ofSegments root) [.of '/'] = false := by
    rw [Bool.eq_false_iff, Ne, Text.endsWith_iff]
    rintro ⟨front, hfront⟩
    exact hlast (by rw [← hfront]; simp)
  simp only [isWithin, htrim, hend, Bool.or_eq_true, decide_eq_true_eq, Text.startsWith_iff,
    List.isEmpty_cons, Bool.false_eq_true, if_false, List.cons.injEq, true_and, List.cons_append,
    List.cons_prefix_cons]
  constructor
  · rintro (heq | ⟨rest, hrest⟩)
    · obtain rfl := ofSegments_injective hn hroot heq
      exact List.prefix_refl _
    · -- the names in front of the slash are those of the other path
      have hne : names ≠ [] := by
        rintro rfl
        simp at hrest
      refine ⟨segments rest, ?_⟩
      rw [← segments_ofSegments hne hn, ← hrest, List.append_assoc]
      exact ((segments_append_slash _ rest).trans (by rw [segments_ofSegments hnil hroot])).symm
  · rintro ⟨rest, rfl⟩
    by_cases hrest : rest = []
    · exact .inl (by rw [hrest, List.append_nil])
    · exact .inr ⟨ofSegments rest, by rw [ofSegments_append hnil hrest]; simp⟩

namespace Scanner

variable {s : Scanner}

/-! ### Entries and directories -/

/-- A scan leaves out what the ignore rules hide. -/
lemma isIgnored_iff {e : Entry} : s.isIgnored e = true ↔ s.ignore.Hides e := by
  unfold isIgnored IgnoreRules.Hides
  cases e.kind <;> simp

/-- **What an entry means for the scan of its directory**, where `P` is that its own scan is known.
-/
lemma inspect_iff (directory : Text) {e : Entry} {P : Prop} :
    (s.inspect directory e = .ignored ∨ s.inspect directory e = .file ∨
        s.inspect directory e = .subdirectory ∧ P) ↔
      s.ignore.Hides e ∨ e.kind ≠ .other ∧
        (e.isLink = true → e.kind ≠ .directory ∧ s.isInside (s.fs.realPath e.path) = true) ∧
        (e.kind = .directory → P) := by
  rw [← isIgnored_iff]
  unfold inspect
  cases s.isIgnored e
  case true => simp
  case false =>
    cases e.isLink <;> cases s.isInside (s.fs.realPath e.path) <;> cases e.kind <;> simp

/-- Entries of which none makes their directory unknown. -/
lemma isSome_through {child : Text → Result} {directory : Text} {entries : List Entry}
    (h : ∀ e ∈ entries, s.inspect directory e = .ignored ∨ s.inspect directory e = .file ∨
      (s.inspect directory e = .subdirectory ∧
        ((child (join directory e.name)).scan).isSome)) :
    ((s.through child directory entries).tally).isSome := by
  induction entries with
  | nil => rfl
  | cons e rest ih =>
    obtain ⟨he, hrest⟩ := List.forall_mem_cons.1 h
    have hrest := ih hrest
    rw [through]
    rcases he with hi | hi | ⟨hi, hsub⟩
    · rwa [hi]
    · rw [hi]
      simpa using hrest
    · obtain ⟨sub, hsub⟩ := Option.isSome_iff_exists.1 hsub
      rw [hi]
      simpa [hsub] using hrest

/-- **When a visit to a directory gives a scan.** -/
lemma isSome_visit_iff {fuel : Nat} {directory : Text} :
    ((s.visit (fuel + 1) directory).scan).isSome ↔
      s.fs.kind? (absolute s.root directory) = some .directory ∧
        (if directory.isEmpty then none else s.misplaced? directory) = none ∧
        ∃ entries, s.fs.list (absolute s.root directory) = .ok entries ∧
          ∀ e ∈ entries, s.ignore.Hides e ∨ e.kind ≠ .other ∧
            (e.isLink = true → e.kind ≠ .directory ∧ s.isInside (s.fs.realPath e.path) = true) ∧
            (e.kind = .directory → ((s.visit fuel (join directory e.name)).scan).isSome) := by
  simp only [← inspect_iff directory]
  constructor
  · intro h
    obtain ⟨scan, hscan⟩ := Option.isSome_iff_exists.1 h
    obtain ⟨hdir, hplace, entries, t, hlist, ht, -⟩ := visit_spec hscan
    exact ⟨hdir, hplace, entries, hlist, fun e he => (through_tally ht).2.2 e (mem_sortBy.2 he)⟩
  · rintro ⟨hdir, hplace, entries, hlist, hall⟩
    have hthrough : ((s.through (s.visit fuel) directory
        (sortBy FileSystem.entryOrder entries)).tally).isSome :=
      isSome_through fun e he => hall e (mem_sortBy.1 he)
    rw [visit]
    simp only [FileSystem.isDirectory, hdir, hplace, FileSystem.sortedList, hlist, Except.map]
    simpa using hthrough

end Scanner

/-! ### Directories that stand where their names say -/

namespace MemoryTree

open Location

variable {t : MemoryTree} {project : Location} {names : List Text}

variable (t project) in
/-- The names lead to a directory of the project that really is where they say. -/
def StandsAt (names : List Text) : Prop :=
  t.kind? (inside project.toText names) = some .directory ∧
    t.realNames (inside project.toText names) = t.realNames project.toText ++ names

/-- A directory that stands where its names say is reached and registered. -/
lemma StandsAt.spec (h : t.WellFormed) (hp : project.IsProper) (hn : AreNames names)
    (hs : t.StandsAt project names) :
    (∃ left, t.arrive? maxLinks (project.segments ++ names) =
        some (t.realNames project.toText ++ names, left)) ∧
      Location.below (t.realNames project.toText ++ names) ∈ t.directories := by
  have hl := hp.further hn
  obtain ⟨hdir, hreal⟩ := hs
  rw [hp.inside hn] at hdir hreal
  rw [kind?_toText h hl] at hdir
  obtain ⟨⟨reached, left⟩, harrive, hkind⟩ := Option.bind_eq_some_iff.1 hdir
  obtain rfl : reached = t.realNames project.toText ++ names :=
    (realNames_of_arrive? hl harrive).symm.trans hreal
  exact ⟨⟨left, harrive⟩, mem_directories_of_kindAt? hkind⟩

/-- A directory that stands where its names say is less deep than the bound. -/
lemma StandsAt.length_lt (h : t.WellFormed) (hp : project.IsProper) (hn : AreNames names)
    (hs : t.StandsAt project names) : names.length < t.fileSystem.depthBound := by
  have hlt := h.length_lt (hs.spec h hp hn).2
  rw [List.length_append] at hlt
  change names.length < t.directories.length + 1
  omega

/-- A directory that stands where its names say is listed unless it refuses to be. -/
lemma StandsAt.list_iff (h : t.WellFormed) (hp : project.IsProper) (hn : AreNames names)
    (hs : t.StandsAt project names) :
    (∃ entries, t.list (inside project.toText names) = .ok entries) ↔
      t.realLocation (inside project.toText names) ∉ t.unreadable := by
  have hmem := (hs.spec h hp hn).2
  rw [← hs.2, ← realLocation] at hmem
  rw [hp.inside hn] at hmem ⊢
  simp only [list, locate_toText (hp.further hn), List.contains_iff_mem, hmem, if_true]
  split <;> simp_all

/-- **What a directory lists as a directory** that is no link stands where its names say. -/
lemma StandsAt.child (h : t.WellFormed) (hp : project.IsProper) (hn : AreNames names)
    (hs : t.StandsAt project names) {entries : List Entry}
    (hlist : t.list (inside project.toText names) = .ok entries) {e : Entry} (he : e ∈ entries)
    (hkind : e.kind = .directory) (hlink : e.isLink = false) :
    t.StandsAt project (names ++ [e.name]) := by
  obtain ⟨⟨left, harrive⟩, -⟩ := hs.spec h hp hn
  have hl := hp.further hn
  have hreal := hs.2
  obtain ⟨real, hnames⟩ : ∃ real, real = t.realNames project.toText ++ names := ⟨_, rfl⟩
  rw [hp.inside hn] at hlist hreal
  rw [← hnames] at harrive hreal
  obtain ⟨hfull, hregistered, hlisted⟩ := listed_eq h hl hlist he
  rw [hreal] at hfull hregistered hlisted
  have hname : IsName e.name := hfull.right e.name (List.mem_singleton_self _)
  have hinner := hn.append hfull.right
  -- no link stands at the entry, nor on the way to it
  have hpass : t.pass [] (real ++ [e.name]) = .arrived (real ++ [e.name]) := by
    have hnone : lookup? (Location.below (real ++ [e.name])) t.links = none := by
      rw [hregistered] at hlink
      simpa [isLink] using hlink
    rw [pass_append, (arrive?_eq_some hl.names harrive).2.1]
    simp [pass, hname.ne_dots, hnone]
  have hentry : t.kindAt? (Location.below (real ++ [e.name])) = some .directory := by
    rw [hkind, kind?_toText h (isProper_below hfull)] at hlisted
    change _ = ((t.arrive? maxLinks (real ++ [e.name])).bind _).getD _ at hlisted
    rw [arrive?_of_pass hpass, Option.bind_some] at hlisted
    cases hk : t.kindAt? (Location.below (real ++ [e.name])) with
    | none => simp [hk] at hlisted
    | some k => simpa [hk] using hlisted.symm
  have hchild : t.arrive? maxLinks (project.segments ++ (names ++ [e.name])) =
      some (real ++ [e.name], left) := by
    rw [← List.append_assoc, arrive?_append [e.name] hl.names, harrive, Option.bind_some,
      arrive?_of_pass hpass]
  rw [StandsAt, hp.inside hinner, ← List.append_assoc (t.realNames project.toText), ← hnames]
  constructor
  · rw [kind?_toText h (hp.further hinner), hchild]
    exact hentry
  · exact realNames_of_arrive? (hp.further hinner) hchild

/-! ### Scanners of a tree in memory -/

variable {ignore : IgnoreRules} {selected : List Text}

/-- **The fuel of a scanner is enough** for every tree in memory. -/
lemma isBounded (h : t.WellFormed) (hp : project.IsProper) (policy : CasePolicy) :
    Scanner.IsBounded ⟨t.fileSystem, project.toText, selected, ignore, policy⟩ where
  project := isProject h hp
  real := exists_realPath h.toRooted
  depth := by
    intro names hn hdir hplace
    have hlt : (t.realNames (inside project.toText names)).length < t.directories.length :=
      h.length_lt (mem_directories_of_kindAt? hdir)
    have hreal := areNames_realNames h.toRooted (inside project.toText names)
    -- the real path of the directory has at least as many names
    have hlength : (Path.names
        (.of '/' :: ofSegments (t.realNames (inside project.toText names)))).length = _ :=
      hplace.length_names hn
    rw [← List.nil_append (CodePoint.of '/' :: _), names_append_slash,
      List.length_append] at hlength
    have hle : (Path.names (ofSegments (t.realNames (inside project.toText names)))).length ≤
        (t.realNames (inside project.toText names)).length := by
      by_cases hne : t.realNames (inside project.toText names) = []
      · rw [hne]
        exact Nat.le_refl 0
      · rw [names_ofSegments hne hreal]
    have hnil : Path.names [] = [] := rfl
    rw [hnil, List.length_nil] at hlength
    change names.length < t.directories.length + 1
    omega

variable (t project) in
/-- The scanner of a project in memory where letter case counts. -/
def scanner (ignore : IgnoreRules) (selected : List Text) : Scanner :=
  ⟨t.fileSystem, project.toText, selected, ignore, .sensitive⟩

/-- A real path lies in the project if its names continue those of the project. -/
lemma isInside_iff (h : t.WellFormed) (path : Text) :
    (t.scanner project ignore selected).isInside (t.fileSystem.realPath path) = true ↔
      t.realNames project.toText <+: t.realNames path := by
  have hsep :
      Scanner.separatorOf (.of '/' :: ofSegments (t.realNames project.toText)) = [.of '/'] := by
    simp [Scanner.separatorOf]
  change isWithin (.of '/' :: ofSegments (t.realNames path))
    (.of '/' :: ofSegments (t.realNames project.toText))
    (Scanner.separatorOf (.of '/' :: ofSegments (t.realNames project.toText))) = true ↔ _
  rw [hsep, isWithin_below (areNames_realNames h.toRooted _) (areNames_realNames h.toRooted _)]

/-- **A directory that is not misplaced** really is where its names say. -/
lemma misplaced?_iff (h : t.WellFormed) (hp : project.IsProper) (hn : AreNames names) :
    (if (ofSegments names).isEmpty then none
        else (t.scanner project ignore selected).misplaced? (ofSegments names)) = none ↔
      t.realNames (inside project.toText names) = t.realNames project.toText ++ names := by
  by_cases hne : names = []
  · subst hne
    simp
  have hroot := areNames_realNames h.toRooted project.toText
  have hreal := areNames_realNames h.toRooted (inside project.toText names)
  have hnil : (ofSegments names).isEmpty = false := by simpa using ofSegments_ne_nil hne hn
  rw [hnil, if_neg Bool.false_ne_true, FileSystem.misplaced?_eq_none (isProject h hp).slash_mem,
    absolute_ofSegments hn]
  change (t.scanner project ignore selected).isInside (t.fileSystem.realPath _) = true ∧
    .of '/' :: ofSegments (t.realNames (inside project.toText names)) =
      t.fileSystem.trimmedRoot project.toText ++ .of '/' :: ofSegments names ↔ _
  rw [isInside_iff h, trimmedRoot_continued hroot hne]
  constructor
  · rintro ⟨-, hpath⟩
    exact ofSegments_injective hreal (hroot.append hn) (List.cons.inj hpath).2
  · intro heq
    change t.realNames project.toText <+: t.realNames (inside project.toText names) ∧ _
    rw [heq]
    exact ⟨List.prefix_append _ _, rfl⟩

/-- **When a visit to a directory of a tree in memory gives a scan.** -/
lemma isSome_visit_iff (h : t.WellFormed) (hp : project.IsProper) (hn : AreNames names)
    {fuel : Nat} :
    (((t.scanner project ignore selected).visit (fuel + 1) (ofSegments names)).scan).isSome ↔
      t.StandsAt project names ∧ ∃ entries, t.list (inside project.toText names) = .ok entries ∧
        ∀ e ∈ entries, ignore.Hides e ∨ e.kind ≠ .other ∧
          (e.isLink = true → e.kind ≠ .directory ∧
            t.realNames project.toText <+: t.realNames e.path) ∧
          (e.kind = .directory → (((t.scanner project ignore selected).visit fuel
            (ofSegments (names ++ [e.name]))).scan).isSome) := by
  rw [Scanner.isSome_visit_iff, misplaced?_iff h hp hn, absolute_ofSegments hn, ← and_assoc]
  simp only [join_ofSegments hn]
  refine and_congr Iff.rfl (exists_congr fun entries => and_congr Iff.rfl ?_)
  refine forall₂_congr fun e _ => or_congr Iff.rfl (and_congr Iff.rfl (and_congr ?_ Iff.rfl))
  exact imp_congr_right fun _ => and_congr Iff.rfl (isInside_iff h e.path)

/-- What a scannable directory contains are directories that stand where their names say. -/
lemma IsScannable.standsAt (h : t.WellFormed) (hp : project.IsProper) {start : List Text}
    (hstart : AreNames start) (hs : t.IsScannable project.toText ignore start)
    (hc : t.fileSystem.Contains ignore project.toText start names) :
    AreNames names ∧ t.StandsAt project names := by
  induction hc with
  | self => exact ⟨hstart, hs.directory, hs.inPlace⟩
  | @inner names entries e hc hlist he hkind hkept ih =>
    obtain ⟨hn, hstands⟩ := ih
    have hname := (isProject h hp).isName hn hlist he
    -- a link to a directory would have to be ignored
    have hlink : e.isLink = false := by
      have hcounts : ¬ ignore.Hides e := by simp [IgnoreRules.Hides, hkind, hkept]
      rw [Bool.eq_false_iff]
      exact fun hlink => ((hs.entry hc hlist he hcounts).2 hlink).1 hkind
    exact ⟨hn.append (areNames_singleton hname), hstands.child h hp hn hlist he hkind hlink⟩

/-- **A scannable directory has a scan**, and so has whatever it contains.

**Proof sketch.** Induction on the fuel. The directory is listed, and each of its entries that
counts is a file or a directory that it contains; the latter is one name deeper. -/
lemma IsScannable.isSome_visit (h : t.WellFormed) (hp : project.IsProper) {start : List Text}
    (hstart : AreNames start) (hs : t.IsScannable project.toText ignore start) :
    ∀ {fuel : Nat} {names : List Text},
      t.fileSystem.Contains ignore project.toText start names →
      t.fileSystem.depthBound ≤ fuel + names.length →
      (((t.scanner project ignore selected).visit fuel (ofSegments names)).scan).isSome := by
  intro fuel
  induction fuel with
  | zero =>
    intro names hc hle
    obtain ⟨hn, hstands⟩ := hs.standsAt h hp hstart hc
    have := hstands.length_lt h hp hn
    omega
  | succ fuel ih =>
    intro names hc hle
    obtain ⟨hn, hstands⟩ := hs.standsAt h hp hstart hc
    obtain ⟨entries, hlist⟩ := (hstands.list_iff h hp hn).2 (hs.readable hc)
    refine (isSome_visit_iff h hp hn).2 ⟨hstands, entries, hlist, fun e he => ?_⟩
    by_cases hhides : ignore.Hides e
    · exact .inl hhides
    obtain ⟨hother, hlink⟩ := hs.entry hc hlist he hhides
    refine .inr ⟨hother, hlink, fun hkind => ih (.inner hc hlist he hkind ?_) ?_⟩
    · simpa [IgnoreRules.Hides, hkind] using hhides
    · rw [List.length_append, List.length_singleton]
      omega

/-- **Whatever a directory with a scan contains has a scan**, as it was made on the way. -/
lemma isSome_visit_of_contains (h : t.WellFormed) (hp : project.IsProper) {start : List Text}
    (hstart : AreNames start) {fuel : Nat}
    (hscan : (((t.scanner project ignore selected).visit fuel (ofSegments start)).scan).isSome)
    (hc : t.fileSystem.Contains ignore project.toText start names) :
    AreNames names ∧ ∃ fuel',
      (((t.scanner project ignore selected).visit (fuel' + 1) (ofSegments names)).scan).isSome := by
  -- without fuel there is no scan
  have hpos : ∀ {fuel : Nat} {names : List Text},
      (((t.scanner project ignore selected).visit fuel (ofSegments names)).scan).isSome →
      ∃ fuel', (((t.scanner project ignore selected).visit (fuel' + 1)
        (ofSegments names)).scan).isSome := by
    intro fuel names hsome
    cases fuel with
    | zero => cases hsome
    | succ fuel => exact ⟨fuel, hsome⟩
  induction hc with
  | self => exact ⟨hstart, hpos hscan⟩
  | @inner names entries e hc hlist he hkind hkept ih =>
    obtain ⟨hn, fuel', hsome⟩ := ih
    obtain ⟨-, entries', hlist', hall⟩ := (isSome_visit_iff h hp hn).1 hsome
    obtain rfl : entries = entries' := by simpa using hlist.symm.trans hlist'
    refine ⟨hn.append (areNames_singleton ((isProject h hp).isName hn hlist he)), ?_⟩
    rcases hall e he with hhides | ⟨-, -, hsub⟩
    · simp [IgnoreRules.Hides, hkind, hkept] at hhides
    · exact hpos (hsub hkind)

/-- **The directories that have a scan** are the scannable ones. -/
theorem isSome_scan?_iff (h : t.WellFormed) (hp : project.IsProper) (hn : AreNames names) :
    ((t.scanner project ignore selected).scan? (ofSegments names)).isSome ↔
      t.IsScannable project.toText ignore names := by
  rw [Scanner.scan?, Scanner.request, dropAround_ofSegments hn]
  constructor
  · intro hscan
    obtain ⟨⟨hdir, hreal⟩, -⟩ := (isSome_visit_iff h hp hn).1 hscan
    refine ⟨hdir, hreal, fun hc => ?_, fun {names' entries e} hc hlist he hcounts => ?_⟩
    · obtain ⟨hn', fuel', hsome⟩ := isSome_visit_of_contains h hp hn hscan hc
      obtain ⟨hstands, entries, hlist, -⟩ := (isSome_visit_iff h hp hn').1 hsome
      exact (hstands.list_iff h hp hn').1 ⟨entries, hlist⟩
    · obtain ⟨hn', fuel', hsome⟩ := isSome_visit_of_contains h hp hn hscan hc
      obtain ⟨-, entries', hlist', hall⟩ := (isSome_visit_iff h hp hn').1 hsome
      obtain rfl : entries = entries' := by simpa using hlist.symm.trans hlist'
      obtain ⟨hother, hlink, -⟩ := (hall e he).resolve_left hcounts
      exact ⟨hother, hlink⟩
  · intro hs
    refine hs.isSome_visit h hp hn .self ?_
    change t.fileSystem.depthBound ≤ t.fileSystem.depthBound + 1 + names.length
    omega

end MemoryTree

/-! ### Requests in a row -/

/-- The request for the directory of given names; without names it is the one for the project. -/
def Scanner.requestOf (names : List Text) : Option Text :=
  if names = [] then none else some (ofSegments names)

/-- The answer of a new scanner to the request for a directory. -/
lemma Scanner.answer_requestOf {s : Scanner} (hb : s.IsBounded) {names : List Text}
    (hn : AreNames names) :
    (s.answer [] (requestOf names)).value = .ok (s.scan? (ofSegments names)) := by
  have hvalue := (answer_spec hb trusts_nil (requestOf names)).1
  rw [hvalue]
  by_cases hne : names = []
  · subst hne
    rfl
  · have hdot : ofSegments names ≠ [.of '.'] := by
      intro hdot
      have hsegments := segments_ofSegments hne hn
      rw [hdot] at hsegments
      exact (hn [.of '.'] (hsegments ▸ List.mem_singleton_self _)).ne_dot rfl
    simp [requestOf, hne, hdot, ofSegments_ne_nil hne hn]

namespace MemoryTree

variable {t : MemoryTree} {project : Location}

/-- **Requests in a row give what a new scanner gives**, and this is a scan exactly of the scannable
directories. -/
theorem session_iff (h : t.WellFormed) (hp : project.IsProper) (ignore : IgnoreRules)
    (selected : List Text) {requests : List (List Text)} (hn : ∀ names ∈ requests, AreNames names) :
    ((t.scanner project ignore selected).session [] (requests.map Scanner.requestOf)).map
        Report.outcome =
        requests.map (fun names =>
          ((t.scanner project ignore selected).answer [] (Scanner.requestOf names)).value) ∧
      ∀ names ∈ requests, ∃ scan,
        ((t.scanner project ignore selected).answer [] (Scanner.requestOf names)).value = .ok scan ∧
          (scan.isSome ↔ t.IsScannable project.toText ignore names) := by
  have hb : (t.scanner project ignore selected).IsBounded := isBounded h hp .sensitive
  constructor
  · rw [Scanner.session_outcome hb _ Scanner.trusts_nil, List.map_map]
    rfl
  · intro names hmem
    exact ⟨_, Scanner.answer_requestOf hb (hn names hmem), isSome_scan?_iff h hp (hn names hmem)⟩

/-- Requests for a directory with an ignored part and a link to a file, for a link to that
directory, for the project, and for the directory again. -/
theorem session_iff_linkedTree :
    ((linkedTree.scanner linkedTree.root ⟨["i".toText], ⟨[]⟩⟩ []).session []
        [some "s".toText, some "S".toText, none, some "s".toText]).map
          (fun r => r.outcome.toOption.map Option.isSome) =
        [some true, some false, some false, some true] ∧
      linkedTree.IsScannable linkedTree.root.toText ⟨["i".toText], ⟨[]⟩⟩ ["s".toText] ∧
      ¬ linkedTree.IsScannable linkedTree.root.toText ⟨["i".toText], ⟨[]⟩⟩ ["S".toText] ∧
      ¬ linkedTree.IsScannable linkedTree.root.toText ⟨["i".toText], ⟨[]⟩⟩ [] := by
  have hrequests : ∀ names ∈ [["s".toText], ["S".toText], [], ["s".toText]], AreNames names := by
    decide
  obtain ⟨houtcomes, hscans⟩ := session_iff wellFormed_linkedTree wellFormed_linkedTree.root
    ⟨["i".toText], ⟨[]⟩⟩ [] hrequests
  -- what a new scanner gives
  have hnew : [["s".toText], ["S".toText], [], ["s".toText]].map (fun names =>
      (((linkedTree.scanner linkedTree.root ⟨["i".toText], ⟨[]⟩⟩ []).answer []
        (Scanner.requestOf names)).value).toOption.map Option.isSome) =
      [some true, some false, some false, some true] := by decide +kernel
  have hone : ∀ {names : List Text} {b : Bool},
      names ∈ [["s".toText], ["S".toText], [], ["s".toText]] →
      (((linkedTree.scanner linkedTree.root ⟨["i".toText], ⟨[]⟩⟩ []).answer []
        (Scanner.requestOf names)).value).toOption.map Option.isSome = some b →
      (linkedTree.IsScannable linkedTree.root.toText ⟨["i".toText], ⟨[]⟩⟩ names ↔ b = true) := by
    intro names b hmem hb
    obtain ⟨scan, hvalue, hiff⟩ := hscans names hmem
    rw [hvalue] at hb
    rw [← hiff, ← Option.some.inj hb]
  simp only [List.map_cons, List.map_nil, List.cons.injEq] at hnew
  refine ⟨?_, (hone (by simp) hnew.1).2 rfl, fun hs => ?_, fun hs => ?_⟩
  · have hall := congrArg (List.map fun o => o.toOption.map Option.isSome) houtcomes
    rw [List.map_map, List.map_map] at hall
    refine hall.trans ?_
    simp only [List.map_cons, List.map_nil, Function.comp, hnew]
  · exact absurd ((hone (by simp) hnew.2.1).1 hs) Bool.false_ne_true
  · exact absurd ((hone (by simp) hnew.2.2.1).1 hs) Bool.false_ne_true

end MemoryTree

end GlobPreset
