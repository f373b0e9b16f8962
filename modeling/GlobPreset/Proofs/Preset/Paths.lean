import GlobPreset.Proofs.FileSystem.Disk
import GlobPreset.Proofs.Preset.Tasks
import GlobPreset.Proofs.Selection.Normal

/-!
# Segments that count

The spelling of an input may have empty segments and dots in it. The normal form of a selection
keeps the segments that count, and what is looked for in the project are just these.

## Main definitions

* `Path.plainNames` — the segments that are neither empty nor a dot.

## Main results

* `Selection.plainNames_normalPath` — **normal forms keep the segments that count**.
* `Preset.plainPath_joinSegment` — what an input is looked for as.
-/

set_option autoImplicit false

namespace GlobPreset

namespace Path

open Text

/-- The segments that are neither empty nor a dot. -/
def plainNames (path : Text) : List Text := (names path).filter (fun s => decide (s ≠ [.of '.']))

/-- A segment counts. -/
def counts (s : Text) : Bool := !s.isEmpty && decide (s ≠ [.of '.'])

/-- The plain names of a path are its segments that count. -/
lemma plainNames_eq (path : Text) : plainNames path = (segments path).filter counts := by
  rw [plainNames, names, List.filter_filter]
  exact List.filter_congr fun s _ => Bool.and_comm _ _

/-- A name counts. -/
lemma IsName.counts {s : Text} (h : IsName s) : Path.counts s = true := by
  simp [Path.counts, h.ne_nil, h.ne_dot]

/-- What does not count stays where it is. -/
lemma counts_eq_false {s : Text} (h : counts s = false) : s = [] ∨ s = [.of '.'] := by
  rw [counts, Bool.and_eq_false_iff] at h
  simpa using h

/-- Segments that count are what is left of their path. -/
lemma plainNames_ofSegments {names : List Text}
    (hn : ∀ s ∈ names, .of '/' ∉ s ∧ counts s = true) : plainNames (ofSegments names) = names := by
  by_cases hne : names = []
  · subst hne
    rfl
  · rw [plainNames_eq, segments, ofSegments, splitOn_joinWith (.of '/') hne fun s hs => (hn s hs).1]
    exact List.filter_eq_self.2 fun s hs => (hn s hs).2

/-- Names count, and have no slashes. -/
lemma AreNames.counts {names : List Text} (h : AreNames names) :
    ∀ s ∈ names, .of '/' ∉ s ∧ Path.counts s = true :=
      fun s hs => ⟨(h s hs).noSlash, (h s hs).counts⟩

/-- Plain names count, and have no slashes. -/
lemma counts_of_mem_plainNames (path : Text) :
    ∀ s ∈ plainNames path, .of '/' ∉ s ∧ counts s = true := by
  intro s hs
  rw [plainNames_eq, List.mem_filter] at hs
  exact ⟨Text.not_mem_of_mem_splitOn hs.1, hs.2⟩

/-- The plain names of a path with a slash are those in front of it and those behind it. -/
lemma plainNames_append_slash (s t : Text) :
    plainNames (s ++ .of '/' :: t) = plainNames s ++ plainNames t := by
  rw [plainNames_eq, segments_append_slash, List.filter_append, ← plainNames_eq, ← plainNames_eq]

/-! ### Other spellings -/

/-- A `./` in front does not matter for the plain names. -/
lemma plainNames_dropDotSlash (path : Text) : plainNames (dropDotSlash path) = plainNames path := by
  fun_induction dropDotSlash path with
  | case1 rest ih =>
    rw [ih, show .of '.' :: .of '/' :: rest = [.of '.'] ++ .of '/' :: rest from rfl,
      plainNames_append_slash]
    rfl
  | case2 path _ => rfl

/-- Slashes at the end do not matter for the plain names. -/
lemma plainNames_dropEndSlashes (path : Text) :
    plainNames (dropEndSlashes path) = plainNames path := by
  unfold dropEndSlashes
  rw [dropEndWhile_eq_rdropWhile]
  induction path using List.reverseRecOn with
  | nil => rfl
  | append_singleton path c ih =>
    by_cases hc : c = .of '/'
    · subst hc
      rw [List.rdropWhile_concat_pos _ _ _ (by decide), ih, plainNames_append_slash]
      exact (List.append_nil _).symm
    · rw [List.rdropWhile_concat_neg _ _ _ (by simpa using hc)]

/-- Reading a run of slashes as one keeps the first segment, and the others that count. -/
lemma segments_squeezeSlashes (path : Text) :
    ∃ first others others', segments path = first :: others ∧
      segments (squeezeSlashes path) = first :: others' ∧
      others'.filter counts = others.filter counts := by
  fun_induction squeezeSlashes path with
  | case1 => exact ⟨[], [], [], rfl, rfl, rfl⟩
  | case2 c rest hslash ih =>
    obtain ⟨hc, hrest⟩ : c = .of '/' ∧ rest.head? = some (.of '/') := by simpa using hslash
    obtain ⟨first, others, others', hsegs, hsqueezed, hsame⟩ := ih
    obtain ⟨more, rfl⟩ : ∃ more, rest = .of '/' :: more := by
      cases rest with
      | nil => cases hrest
      | cons d more => exact ⟨more, by rw [Option.some.inj hrest]⟩
    rw [segments, splitOn_cons_sep] at hsegs
    obtain ⟨rfl, rfl⟩ := List.cons.inj hsegs
    refine ⟨[], [] :: splitOn (.of '/') more, others', ?_, hsqueezed, hsame⟩
    rw [hc, segments, splitOn_cons_sep, splitOn_cons_sep]
  | case3 c rest hplain ih =>
    obtain ⟨first, others, others', hsegs, hsqueezed, hsame⟩ := ih
    by_cases hc : c = .of '/'
    · subst hc
      refine ⟨[], first :: others, first :: others', ?_, ?_, ?_⟩
      · rw [segments, splitOn_cons_sep]
        exact congrArg _ hsegs
      · rw [segments, splitOn_cons_sep]
        exact congrArg _ hsqueezed
      · rw [List.filter_cons, List.filter_cons, hsame]
    · exact ⟨c :: first, others, others', splitOn_cons_of_ne hc hsegs,
        splitOn_cons_of_ne hc hsqueezed, hsame⟩

/-- Repeated slashes do not matter for the plain names. -/
lemma plainNames_squeezeSlashes (path : Text) :
    plainNames (squeezeSlashes path) = plainNames path := by
  obtain ⟨first, others, others', hsegs, hsqueezed, hsame⟩ := segments_squeezeSlashes path
  rw [plainNames_eq, plainNames_eq, hsegs, hsqueezed, List.filter_cons, List.filter_cons, hsame]

end Path

open GlobPreset.Path

/-- **Normal forms keep the segments that count.** -/
theorem Selection.plainNames_normalPath (path : Text) :
    plainNames (Selection.normalPath path) = plainNames (toSlashes path) := by
  rw [Selection.normalPath, plainNames_squeezeSlashes, plainNames_dropEndSlashes,
    plainNames_dropDotSlash]

/-! ### Looking for inputs -/

namespace Location

variable {l : Location}

/-- The anchor of a proper location stays in front of whatever follows but a slash. -/
lemma IsProper.anchorOf_append (h : l.IsProper) {tail : Text}
    (htail : l.segments ≠ [] ∨ tail.head? ≠ some (.of '/')) :
    anchorOf (l.toText ++ tail) = l.anchor := by
  obtain ⟨anchor, segments⟩ := l
  have hlead : ∀ rest : Text, rest = ofSegments segments ++ tail → rest.head? ≠ some (.of '/') := by
    rintro rest rfl
    by_cases hne : segments = []
    · subst hne
      exact htail.resolve_left (fun hne => hne rfl)
    · have hhead := head?_ofSegments_ne h.names
      obtain ⟨c, t, hct⟩ := List.exists_cons_of_ne_nil (ofSegments_ne_nil hne h.names)
      rw [hct] at hhead ⊢
      exact hhead
  have hrest := hlead _ rfl
  rw [toText, List.append_assoc]
  cases anchor with
  | relative => exact absurd rfl h.absolute
  | root =>
    cases ht : ofSegments segments ++ tail with
    | nil => rfl
    | cons c t =>
      rw [ht] at hrest
      have hc : c ≠ .of '/' := by simpa using hrest
      simp [anchorText, anchorOf, hc]
  | doubleRoot =>
    cases ht : ofSegments segments ++ tail with
    | nil => rfl
    | cons c t =>
      rw [ht] at hrest
      have hc : c ≠ .of '/' := by simpa using hrest
      simp [anchorText, anchorOf, hc]

/-- The segments of the text of a proper location that count are its own. -/
lemma IsProper.plainNames_append_slash (h : l.IsProper) (tail : Text) :
    plainNames (l.toText ++ .of '/' :: tail) = l.segments ++ plainNames tail := by
  have hroot : ∀ names, AreNames names →
      plainNames (.of '/' :: (ofSegments names ++ .of '/' :: tail)) = names ++ plainNames tail := by
    intro names hn
    rw [show .of '/' :: (ofSegments names ++ .of '/' :: tail) =
      [] ++ .of '/' :: (ofSegments names ++ .of '/' :: tail)
      from rfl, Path.plainNames_append_slash, Path.plainNames_append_slash,
      plainNames_ofSegments hn.counts]
    rfl
  obtain ⟨anchor, segments⟩ := l
  rw [toText, List.append_assoc]
  cases anchor with
  | relative => exact absurd rfl h.absolute
  | root => exact hroot segments h.names
  | doubleRoot =>
    have hcut :=
      Path.plainNames_append_slash [] (.of '/' :: (ofSegments segments ++ .of '/' :: tail))
    exact hcut.trans (hroot segments h.names)

end Location

namespace Preset

open Location

/-- **What an input is looked for as**: the path of its segments that count, in the project. -/
theorem plainPath_joinSegment {l : Location} (h : l.IsProper) {path : Text}
    (hpath : path.head? ≠ some (.of '/')) :
    plainPath (joinSegment l.toText path) =
      (⟨l.anchor, l.segments ++ plainNames path⟩ : Location).toText := by
  have hplain : ∀ tail, (l.toText ++ tail).head? = some (.of '/') ∧
      (l.segments ≠ [] ∨ tail.head? ≠ some (.of '/')) →
      plainNames (l.toText ++ tail) = l.segments ++ plainNames path →
      plainPath (l.toText ++ tail) =
        (⟨l.anchor, l.segments ++ plainNames path⟩ : Location).toText := by
    intro tail htail hnames
    unfold plainPath
    rw [if_pos htail.1, h.anchorOf_append htail.2]
    exact congrArg (fun names => anchorText l.anchor ++ ofSegments names) hnames
  have hstart : ∀ tail, (l.toText ++ tail).head? = some (.of '/') := by
    intro tail
    rw [List.head?_append, h.head?_toText]
    rfl
  rw [h.joinSegment_eq hpath]
  split
  · rename_i hnil
    refine hplain path ⟨hstart _, .inr hpath⟩ ?_
    have hroot : l.toText ++ path = anchorText l.anchor ++ path := by
      rw [toText, hnil, ofSegments_nil, List.append_nil]
    rw [hroot, hnil]
    cases ha : l.anchor with
    | relative => exact absurd ha h.absolute
    | root => exact Path.plainNames_append_slash [] path
    | doubleRoot => exact Path.plainNames_append_slash [.of '/'] path
  · rename_i hne
    exact hplain (.of '/' :: path) ⟨hstart _, .inl hne⟩ (h.plainNames_append_slash path)

/-! ### Where presets are kept -/

/-- The text of a proper location has no segment that does not count. -/
lemma plainPath_toText {l : Location} (h : l.IsProper) : plainPath l.toText = l.toText := by
  have hnames : plainNames l.toText = l.segments := by
    rw [plainNames, h.names_toText]
    exact List.filter_eq_self.2 fun s hs => decide_eq_true (h.names s hs).ne_dot
  unfold plainPath
  rw [if_pos h.head?_toText, h.anchorOf_toText]
  exact congrArg (fun names => anchorText l.anchor ++ ofSegments names) hnames

/-- The segments that count stay. -/
lemma plainNames_plainPath (path : Text) : plainNames (plainPath path) = plainNames path := by
  have hnames : plainNames (ofSegments (plainNames path)) = plainNames path :=
    plainNames_ofSegments (counts_of_mem_plainNames path)
  change plainNames (if path.head? = some (.of '/') then
      anchorText (anchorOf path) ++ ofSegments (plainNames path)
    else if (plainNames path).isEmpty then [.of '.'] else ofSegments (plainNames path)) = _
  split
  · cases anchorOf path with
    | relative => exact hnames
    | root => exact (Path.plainNames_append_slash [] _).trans hnames
    | doubleRoot => exact (Path.plainNames_append_slash [.of '/'] _).trans hnames
  · split
    · rename_i hempty
      rw [List.isEmpty_iff.1 hempty]
      rfl
    · exact hnames

/-- Unless none counts, the segments of a path that count are left of it, behind the anchor. -/
lemma segments_plainPath {path : Text} (hne : plainNames path ≠ []) :
    ∃ empties, (∀ s ∈ empties, s = []) ∧
      Path.segments (plainPath path) = empties ++ plainNames path := by
  have hsegs : Path.segments (ofSegments (plainNames path)) = plainNames path :=
    Text.splitOn_joinWith (.of '/') hne fun s hs => (counts_of_mem_plainNames path s hs).1
  change ∃ empties, _ ∧ Path.segments (if path.head? = some (.of '/') then
      anchorText (anchorOf path) ++ ofSegments (plainNames path)
    else if (plainNames path).isEmpty then [.of '.'] else ofSegments (plainNames path)) = _
  split
  · cases anchorOf path with
    | relative => exact ⟨[], by simp, hsegs⟩
    | root =>
      exact ⟨[[]], by simp, (segments_append_slash [] _).trans (congrArg ([[]] ++ ·) hsegs)⟩
    | doubleRoot =>
      exact ⟨[[], []], by simp,
        (segments_append_slash [.of '/'] _).trans (congrArg ([[], []] ++ ·) hsegs)⟩
  · rw [List.isEmpty_eq_false_iff.2 hne, if_neg Bool.false_ne_true]
    exact ⟨[], by simp, hsegs⟩

/-- The names of such a path are the segments that count. -/
lemma names_append_plainNames {empties : List Text} (hempties : ∀ s ∈ empties, s = [])
    (path : Text) :
    (empties ++ plainNames path).filter (fun s => !s.isEmpty) = plainNames path := by
  rw [List.filter_append, List.filter_eq_nil_iff.2 fun s hs => by simp [hempties s hs],
    List.nil_append]
  refine List.filter_eq_self.2 fun s hs => ?_
  have hcounts := (counts_of_mem_plainNames path s hs).2
  rw [counts, Bool.and_eq_true] at hcounts
  exact hcounts.1

/-- Going one name further puts it behind the segments, unless the last one is empty. -/
lemma segments_joinSegment {name : Text} (hname : IsName name) (path : Text) :
    ∃ front, Path.segments (joinSegment path name) = front ++ [name] ∧
      front.filter (fun s => !s.isEmpty) = Path.names path ∧
      (path.getLast? ≠ some (.of '/') → path ≠ [] → front = Path.segments path) := by
  have hhead : name.head? ≠ some (.of '/') := fun hh => hname.noSlash (List.mem_of_head? hh)
  have hone : Path.segments name = [name] := Text.splitOn_of_not_mem hname.noSlash
  rw [joinSegment, if_neg hhead]
  by_cases hempty : path = []
  · subst hempty
    exact ⟨[], hone, rfl, fun _ hne => absurd rfl hne⟩
  by_cases hslash : path.getLast? = some (.of '/')
  · obtain ⟨before, rfl⟩ := List.getLast?_eq_some_iff.1 hslash
    refine ⟨Path.segments before, ?_, ?_, fun hne => absurd hslash hne⟩
    · rw [if_pos (by simp), List.append_assoc, List.singleton_append, segments_append_slash, hone]
    · rw [names_append_slash]
      exact (List.append_nil _).symm
  · rw [if_neg (by simp [hempty, hslash]), segments_append_slash, hone]
    exact ⟨_, rfl, rfl, fun _ _ => rfl⟩

/-- Going further by names puts them behind the segments. -/
lemma segments_joinText {more : List Text} (hn : AreNames more) (hne : more ≠ []) (path : Text) :
    ∃ front, Path.segments (joinText path more) = front ++ more ∧
      front.filter (fun s => !s.isEmpty) = Path.names path := by
  induction more using List.reverseRecOn with
  | nil => exact absurd rfl hne
  | append_singleton more last ih =>
    have hlast : IsName last := hn last (by simp)
    have hjoin : joinText path (more ++ [last]) = joinSegment (joinText path more) last :=
      List.foldl_concat _ _ _ _
    rw [hjoin]
    obtain ⟨behind, hsegs, hfilter, hwhole⟩ := segments_joinSegment hlast (joinText path more)
    by_cases hmore : more = []
    · subst hmore
      exact ⟨behind, hsegs, hfilter⟩
    obtain ⟨front, hfront, hnames⟩ := ih hn.left hmore
    -- the last segment so far is a name, so that no slash is at the end
    obtain ⟨others, name, rfl⟩ := (List.eq_nil_or_concat' more).resolve_left hmore
    have hname : IsName name := hn.left name (by simp)
    have hends : ∀ {before : List Text},
        before ++ [[]] = front ++ (others ++ [name]) → False := by
      intro before heq
      rw [← List.append_assoc] at heq
      exact hname.ne_nil (List.cons.inj (List.append_inj_right' heq rfl)).1.symm
    have heq := hwhole
      (fun hslash => by
        obtain ⟨before, hbefore⟩ := List.getLast?_eq_some_iff.1 hslash
        rw [hbefore] at hfront
        exact hends ((segments_append_slash before []).symm.trans hfront))
      (fun hempty => by
        rw [hempty] at hfront
        exact hends ((List.nil_append _).trans hfront))
    exact ⟨front, by rw [hsegs, heq, hfront, List.append_assoc], hnames⟩

/-- A place within a path has its names behind the segments of the path that count. -/
lemma plainNames_within {more : List Text} (hn : AreNames more) (hne : more ≠ []) (path : Text) :
    plainNames (within path more) = plainNames path ++ more := by
  obtain ⟨front, hsegs, hfront⟩ := segments_joinText hn hne (plainPath path)
  rw [within, plainNames, Path.names, hsegs, List.filter_append, List.filter_append, hfront]
  have hmore :
      (more.filter (fun s => !s.isEmpty)).filter (fun s => decide (s ≠ [.of '.'])) = more := by
    rw [List.filter_filter]
    refine List.filter_eq_self.2 fun s hs => ?_
    simp [(hn s hs).ne_nil, (hn s hs).ne_dot]
  rw [hmore]
  exact congrArg (· ++ more) (plainNames_plainPath path)

/-- The directory of a file, given by its path. -/
lemma segments_parent {path : Text} {front : List Text} {last : Text}
    (h : Path.segments path = front ++ [last]) (hne : front ≠ []) :
    Path.segments (Path.parent path) = front := by
  have hslash : ∀ s ∈ front ++ [last], .of '/' ∉ s := fun s hs =>
    Text.not_mem_of_mem_splitOn (by rwa [← Path.segments, h])
  rw [← ofSegments_segments path, h, parent_ofSegments_concat _ (hslash last (by simp))]
  exact Text.splitOn_joinWith (.of '/') hne fun s hs => hslash s (List.mem_append_left _ hs)

/-- **The file of a directory**: in front of its name are the segments of the directory that count.
-/
lemma segments_file {directory file : Text} (hfile : IsName file)
    (hne : plainNames directory ≠ []) :
    ∃ empties, (∀ s ∈ empties, s = []) ∧
      Path.segments (within directory [file]) = (empties ++ plainNames directory) ++ [file] ∧
      Path.names (Path.parent (within directory [file])) = plainNames directory := by
  obtain ⟨empties, hempties, hplain⟩ := segments_plainPath hne
  obtain ⟨front, hsegs, -, hwhole⟩ := segments_joinSegment hfile (plainPath directory)
  -- the last segment counts, so that no slash is at the end
  obtain ⟨others, last, hlast⟩ := (List.eq_nil_or_concat' _).resolve_left hne
  have hends : ∀ {before : List Text}, before ++ [[]] = empties ++ (others ++ [last]) → False := by
    intro before heq
    rw [← List.append_assoc] at heq
    obtain rfl := (List.cons.inj (List.append_inj_right' heq rfl)).1
    exact absurd (counts_of_mem_plainNames directory [] (by simp [hlast])).2 (by decide)
  rw [hlast] at hplain
  have heq := hwhole
    (fun hslash => by
      obtain ⟨before, hbefore⟩ := List.getLast?_eq_some_iff.1 hslash
      rw [hbefore] at hplain
      exact hends ((segments_append_slash before []).symm.trans hplain))
    (fun hempty => by
      rw [hempty] at hplain
      exact hends ((List.nil_append _).trans hplain))
  rw [heq, hplain, ← hlast] at hsegs
  refine ⟨empties, hempties, hsegs, ?_⟩
  have hparent : Path.segments (Path.parent (within directory [file])) =
      empties ++ plainNames directory := segments_parent hsegs (by simp [hne])
  rw [Path.names, hparent, names_append_plainNames hempties]

/-- A place within a proper location. -/
lemma within_toText {l : Location} (h : l.IsProper) {names : List Text} (hn : AreNames names) :
    within l.toText names = (⟨l.anchor, l.segments ++ names⟩ : Location).toText := by
  rw [within, plainPath_toText h]
  exact h.inside hn

/-- The name of folders is a name. -/
lemma areNames_folderName : AreNames [folderName] :=
  areNames_singleton ⟨by decide, by decide, by decide, by decide⟩

/-- The name of directories of presets is a name. -/
lemma areNames_subfolderName : AreNames [subfolderName] :=
  areNames_singleton ⟨by decide, by decide, by decide, by decide⟩

/-- The name of the file of a preset. -/
lemma isName_append_suffix {name : Text} (h : isBadName name = false) :
    IsName (name ++ suffix) := by
  have hslash : .of '/' ∉ name := by
    intro hmem
    simp [isBadName, hmem] at h
  have hlong : 2 < (name ++ suffix).length := by
    rw [List.length_append]
    exact Nat.lt_add_left _ (by decide)
  have hshort : ∀ {short : Text}, short.length ≤ 2 → name ++ suffix ≠ short := by
    rintro short hle rfl
    exact absurd hle (Nat.not_le.2 hlong)
  refine ⟨hshort (by simp), ?_, hshort (by simp), hshort (by simp)⟩
  rw [List.mem_append, not_or]
  exact ⟨hslash, by decide⟩

variable {d : Disk}

/-- The folder above some names is a proper location. -/
lemma folderAbove_isProper {names : List Text} (hn : AreNames names.reverse) {folder : Text}
    (h : folderAbove d names = .ok (some folder)) :
    ∃ l : Location, l.IsProper ∧ folder = l.toText := by
  have hfolder : ∀ {above : List Text}, AreNames above →
      ∃ l : Location, l.IsProper ∧ within (below above).toText [folderName] = l.toText := by
    intro above habove
    have hl := isProper_below habove
    exact ⟨_, hl.further areNames_folderName, within_toText hl areNames_folderName⟩
  induction names with
  | nil =>
    obtain ⟨kind, -, h⟩ := bind_eq_ok.1 h
    split at h
    · cases h
      exact hfolder areNames_nil
    · cases h
  | cons last above ih =>
    obtain ⟨kind, -, h⟩ := bind_eq_ok.1 h
    split at h
    · cases h
      exact hfolder hn
    · rw [List.reverse_cons] at hn
      exact ih hn.left h

/-- A path that is resolved has a proper location. -/
lemma resolve_isProper {path real : Text} (h : d.resolve path = .ok real) :
    ∃ l : Location, l.IsProper ∧ real = l.toText := by
  obtain ⟨real', hreal, hrest⟩ := bind_eq_ok.1 h
  obtain rfl : real' = real := by
    dsimp only at hrest
    by_cases hrefused : Disk.isRefused real' = true
    · rw [if_pos hrefused] at hrest
      cases hrest
    · rw [if_neg hrefused] at hrest
      split at hrest
      · cases hrest
      · exact Except.ok.inj hrest
  exact Disk.realPath?_isProper hreal

/-- **Presets are kept at proper locations.** -/
theorem pathOf_isProper {project : Location} (hproject : project.IsProper) {name path : Text}
    (h : pathOf d project.toText name = .ok path) :
    ∃ l : Location, l.IsProper ∧ path = l.toText := by
  unfold pathOf at h
  split at h
  · cases h
  rename_i hname
  have hfile := areNames_singleton (isName_append_suffix (by simpa using hname))
  suffices hdirectory : ∀ {directory}, directoryOf d project.toText = .ok directory →
      ∃ l : Location, l.IsProper ∧ directory = l.toText by
    rw [mapError_eq_ok] at h
    cases hdir : directoryOf d project.toText with
    | error e =>
      rw [hdir] at h
      cases h
    | ok directory =>
      rw [hdir] at h
      obtain ⟨l, hl, rfl⟩ := hdirectory hdir
      cases h
      exact ⟨_, hl.further hfile, within_toText hl hfile⟩
  intro directory hdir
  obtain ⟨found, hfound, hdir⟩ := bind_eq_ok.1 hdir
  obtain ⟨real, hreal, hfolder⟩ := bind_eq_ok.1 hfound
  obtain ⟨r, hr, rfl⟩ := resolve_isProper hreal
  cases found with
  | some folder =>
    cases hdir
    rw [hr.names_toText] at hfolder
    obtain ⟨l, hl, rfl⟩ := folderAbove_isProper (by simpa using hr.names) hfolder
    exact ⟨_, hl.further areNames_subfolderName, within_toText hl areNames_subfolderName⟩
  | none =>
    cases hdir
    have hboth : AreNames [folderName, subfolderName] :=
      areNames_folderName.append areNames_subfolderName
    exact ⟨_, hproject.further hboth, within_toText hproject hboth⟩

end Preset

end GlobPreset
