import GlobPreset.Proofs.FileSystem.Project
import GlobPreset.Walk

/-!
# What a walk reaches

A walk collects the files that listings lead to, one directory after another, past no ignored name.
This is a relation between names, without fuel and without the directories that a walk is inside of.
Where every directory on the way is in place the walk never turns back, so the relation is what it
finds.

## Main definitions

* `FileSystem.Reaches` — listings lead from a directory to a file, past no ignored name.
* `FileSystem.Clear` — below a directory, everything that is not ignored is in place and listed.
* `IgnoreRules.crossesNames` — a walk does not get past some name.

## Main results

* `FileSystem.Clear.descend` — a walk from further above gets to the same files.
* `FileSystem.reaches_of_kind?` — a clear walk reaches the files that are not ignored.
* `Walk.reaches_of_mem_below` — what a walk finds is reached.
* `Walk.mem_files_of_clear`, `Walk.files_of_isFile` — the walk from a base.
-/

set_option autoImplicit false

namespace GlobPreset

open GlobPreset.Path

/-! ### Ignored names on the way -/

namespace IgnoreRules

/-- A walk does not get to the file at the end of the names. -/
def crossesNames (ignore : IgnoreRules) (rel : List Text) : Bool :=
  rel.dropLast.any ignore.ignoresDirectory || ignore.ignoresFile (rel.getLast?.getD [])

/-- The test of a path of names. -/
lemma crosses_ofSegments (ignore : IgnoreRules) {rel : List Text} (hne : rel ≠ [])
    (hn : AreNames rel) : ignore.crosses (ofSegments rel) true = ignore.crossesNames rel := by
  have hnil : (ofSegments rel).isEmpty = false := by simpa using ofSegments_ne_nil hne hn
  simp [crosses, hnil, segments_ofSegments hne hn, crossesNames]

/-- A way meets an ignored name with its first name or behind it. -/
lemma crossesNames_cons (ignore : IgnoreRules) (name : Text) {rel : List Text} (hne : rel ≠ []) :
    ignore.crossesNames (name :: rel) =
      (ignore.ignoresDirectory name || ignore.crossesNames rel) := by
  obtain ⟨b, rest, rfl⟩ := List.exists_cons_of_ne_nil hne
  simp [crossesNames, Bool.or_assoc]

end IgnoreRules

namespace FileSystem

variable (fs : FileSystem) (policy : CasePolicy) (ignore : IgnoreRules) (root : Text)

/-! ### The relation -/

/-- Listings lead from the directory `names` along `rel` to a file, past no ignored name. -/
inductive Reaches : (names rel : List Text) → Prop
  | file {names : List Text} {entries : List Entry} {e : Entry}
      (hlist : fs.list (inside root names) = .ok entries) (he : e ∈ entries)
      (hkind : e.kind = .file) (hkept : ignore.ignoresFile e.name = false) :
      Reaches names [e.name]
  | inner {names : List Text} {entries : List Entry} {e : Entry} {rel : List Text}
      (hlist : fs.list (inside root names) = .ok entries) (he : e ∈ entries)
      (hkind : e.kind = .directory) (hkept : ignore.ignoresDirectory e.name = false)
      (hrel : Reaches (names ++ [e.name]) rel) :
      Reaches names (e.name :: rel)

/-- At most `fuel` directories deep, everything below a directory that is not ignored is in place,
as far as the case policy tells, and every directory is listed. -/
def Clear : (fuel : Nat) → (names : List Text) → Prop
  | 0, _ => False
  | fuel + 1, names =>
    InPlaceBy policy fs root names ∧ ∃ entries, fs.list (inside root names) = .ok entries ∧
      ∀ e ∈ entries, e.kind = .directory → ignore.ignoresDirectory e.name = false →
        Clear fuel (names ++ [e.name])

variable {fs policy ignore root}

/-- What is reached is reached by names. -/
lemma Reaches.ne_nil {names rel : List Text} (h : fs.Reaches ignore root names rel) :
    rel ≠ [] := by
  cases h <;> exact List.cons_ne_nil _ _

/-- A file that is reached in one step is listed. -/
lemma Reaches.of_singleton {names : List Text} {name : Text} {entries : List Entry}
    (h : fs.Reaches ignore root names [name]) (hlist : fs.list (inside root names) = .ok entries) :
    ∃ e ∈ entries, e.name = name ∧ e.kind = .file ∧ ignore.ignoresFile e.name = false := by
  cases h with
  | @file _ entries' e hlist' he hkind hkept =>
    obtain rfl : entries = entries' := by simpa [hlist] using hlist'
    exact ⟨e, he, rfl, hkind, hkept⟩
  | inner _ _ _ _ hrel => exact absurd rfl hrel.ne_nil

/-- What is reached is listed as a file. -/
lemma Reaches.exists_listed {names rel : List Text} (h : fs.Reaches ignore root names rel) :
    ∃ part entries e, rel = part ++ [e.name] ∧
      fs.list (inside root (names ++ part)) = .ok entries ∧ e ∈ entries ∧ e.kind = .file := by
  induction h with
  | @file names entries e hlist he hkind _ =>
    exact ⟨[], entries, e, rfl, by rwa [List.append_nil], he, hkind⟩
  | @inner names entries e rel hlist he hkind _ _ ih =>
    obtain ⟨part, entries', e', rfl, hlist', he', hkind'⟩ := ih
    exact ⟨e.name :: part, entries', e', rfl, by rwa [List.append_cons], he', hkind'⟩

/-- What is reached has plain names if the directory has. -/
lemma Reaches.areNames (hp : fs.IsProject root) {names rel : List Text}
    (h : fs.Reaches ignore root names rel) (hn : AreNames names) : AreNames (names ++ rel) := by
  induction h with
  | file hlist he _ _ => exact hn.append (areNames_singleton (hp.isName hn hlist he))
  | inner hlist he _ _ _ ih =>
    have hname := areNames_singleton (hp.isName hn hlist he)
    simpa using ih (hn.append hname)

/-- What a walk reaches has no ignored name on the way. -/
lemma Reaches.not_crosses {names rel : List Text} (h : fs.Reaches ignore root names rel) :
    ignore.crossesNames rel = false := by
  induction h with
  | file _ _ _ hkept => simpa [IgnoreRules.crossesNames] using hkept
  | inner _ _ _ hkept hrel ih =>
    rw [ignore.crossesNames_cons _ hrel.ne_nil, hkept, ih]
    rfl

/-! ### Clear directories -/

/-- A clear directory is in its place. -/
lemma Clear.inPlace {fuel : Nat} {names : List Text} (h : fs.Clear policy ignore root fuel names) :
    InPlaceBy policy fs root names := by
  cases fuel with
  | zero => exact h.elim
  | succ fuel => exact h.1

/-- A clear directory lists what is directly inside it. -/
lemma Clear.entry (hp : fs.IsProject root) {k : Nat} {names : List Text} {name : Text}
    {kind : NodeKind} (h : fs.Clear policy ignore root k names) (hn : AreNames names)
    (hname : IsName name) (hk : fs.kind? (inside root (names ++ [name])) = some kind) :
    ∃ entries, fs.list (inside root names) = .ok entries ∧
      ∃ e ∈ entries, e.name = name ∧ e.kind = kind := by
  cases k with
  | zero => exact h.elim
  | succ k =>
    obtain ⟨-, entries, hlist, -⟩ := h
    exact ⟨entries, hlist, hp.listed hn hname hk hlist⟩

/-- What is inside a clear directory and not ignored is clear. -/
lemma Clear.child {k : Nat} {names : List Text} {entries : List Entry} {e : Entry}
    (h : fs.Clear policy ignore root k names) (hlist : fs.list (inside root names) = .ok entries)
    (he : e ∈ entries) (hkind : e.kind = .directory)
    (hkept : ignore.ignoresDirectory e.name = false) :
    fs.Clear policy ignore root (k - 1) (names ++ [e.name]) := by
  cases k with
  | zero => exact h.elim
  | succ k =>
    obtain ⟨-, entries', hlist', hbelow⟩ := h
    rw [hlist] at hlist'
    cases hlist'
    exact hbelow e he hkind hkept

/-- **A walk from further above** gets through a directory on the way if no name of the way is
ignored: what is clear stays clear, and what is reached from there is reached from above.

**Proof sketch.** Induction on the way. Whatever contains the directory is one, so the first name of
the way is a listed directory, and it is not ignored. -/
lemma Clear.descend (hp : fs.IsProject root) {part : List Text} :
    ∀ {k : Nat} {names : List Text}, AreNames (names ++ part) →
      fs.Clear policy ignore root k names →
      fs.kind? (inside root (names ++ part)) = some .directory →
      part.any ignore.ignoresDirectory = false →
      (∃ k' ≤ k, fs.Clear policy ignore root k' (names ++ part)) ∧
        ∀ rel, fs.Reaches ignore root (names ++ part) rel →
          fs.Reaches ignore root names (part ++ rel) := by
  induction part with
  | nil =>
    intro k names _ h _ _
    simp only [List.append_nil, List.nil_append]
    exact ⟨⟨k, le_rfl, h⟩, fun _ hrel => hrel⟩
  | cons name part ih =>
    intro k names hn h hdir hkept
    have happ : names ++ name :: part = (names ++ [name]) ++ part := by simp
    rw [happ] at hn hdir ⊢
    rw [List.any_cons, Bool.or_eq_false_iff] at hkept
    have hnames : AreNames names := hn.left.left
    have hname : IsName name := hn.left name (by simp)
    -- the first name of the way leads to a directory
    have hfirst : fs.kind? (inside root (names ++ [name])) = some .directory := by
      by_cases hpart : part = []
      · simpa [hpart] using hdir
      · exact hp.directory_above hpart hn (by rw [hdir]; rfl)
    obtain ⟨entries, hlist, e, he, rfl, hkind⟩ := h.entry hp hnames hname hfirst
    have hchild := h.child hlist he hkind hkept.1
    obtain ⟨⟨k', hk', hclear⟩, hreach⟩ := ih hn hchild hdir hkept.2
    exact ⟨⟨k', by omega, hclear⟩,
      fun rel hrel => .inner hlist he hkind hkept.1 (hreach rel hrel)⟩

/-- **A clear walk reaches the files that are not ignored.** -/
lemma reaches_of_kind? (hp : fs.IsProject root) {k : Nat} {names rel : List Text}
    (hne : rel ≠ []) (hn : AreNames (names ++ rel)) (h : fs.Clear policy ignore root k names)
    (hfile : fs.kind? (inside root (names ++ rel)) = some .file)
    (hkept : ignore.crossesNames rel = false) : fs.Reaches ignore root names rel := by
  obtain ⟨part, name, rfl⟩ := List.eq_nil_or_concat' rel |>.resolve_left hne
  rw [← List.append_assoc] at hn hfile
  rw [IgnoreRules.crossesNames, Bool.or_eq_false_iff] at hkept
  simp only [List.dropLast_concat, List.getLast?_concat, Option.getD_some] at hkept
  have hname : IsName name := hn.right name (List.mem_singleton_self name)
  have hdir := hp.parent_directory hn.left hname (by rw [hfile]; rfl)
  obtain ⟨⟨k', -, hclear⟩, hreach⟩ := h.descend hp hn.left hdir hkept.1
  obtain ⟨entries, hlist, e, he, rfl, hkind⟩ := hclear.entry hp hn.left hname hfile
  exact hreach [e.name] (.file hlist he hkind hkept.2)

end FileSystem

/-! ### Walks -/

namespace Walk

variable {fs : FileSystem} {policy : CasePolicy} {ignore : IgnoreRules} {root : Text}

/-- The files of a walk through a directory that is not turned back from. -/
lemma mem_below_succ {fuel : Nat} {above : List Text} {path location : Text}
    {entries : List Entry} (habove : fs.realPath location ∉ above)
    (hlist : fs.list location = .ok entries) (f : Text) :
    f ∈ (below fs ignore (fuel + 1) above path location).filterMap Event.file? ↔
      ∃ e ∈ entries,
        (e.kind = .directory ∧ ignore.ignoresDirectory e.name = false ∧
          f ∈ (below fs ignore fuel (fs.realPath location :: above) (join path e.name)
            e.path).filterMap Event.file?) ∨
        (e.kind = .file ∧ ignore.ignoresFile e.name = false ∧ f = join path e.name) := by
  have hc : above.contains (fs.realPath location) = false := by simpa using habove
  have hsorted : fs.sortedList location = .ok (sortBy FileSystem.entryOrder entries) := by
    rw [FileSystem.sortedList, hlist]
    rfl
  simp only [below, hc, hsorted, Bool.false_eq_true, if_false, List.filterMap_flatMap,
    List.mem_flatMap, mem_sortBy]
  refine exists_congr fun e => and_congr_right fun _ => ?_
  cases e.kind with
  | directory => cases ignore.ignoresDirectory e.name <;> simp
  | file => cases ignore.ignoresFile e.name <;> simp [Event.file?]
  | other => simp

/-- **What a walk finds is reached**, whether or not it turns back somewhere. -/
theorem reaches_of_mem_below (hp : fs.IsProject root) :
    ∀ {fuel : Nat} {names above : List Text} {f : Text}, AreNames names →
      f ∈ (below fs ignore fuel above (ofSegments names) (inside root names)).filterMap
        Event.file? →
      ∃ rel, fs.Reaches ignore root names rel ∧ f = ofSegments (names ++ rel) := by
  intro fuel
  induction fuel with
  | zero =>
    intro names above f _ hf
    simp [below] at hf
  | succ fuel ih =>
    intro names above f hn hf
    by_cases hturn : fs.realPath (inside root names) ∈ above
    · simp [below, hturn, Event.file?] at hf
    cases hlist : fs.list (inside root names) with
    | error e => simp [below, hturn, FileSystem.sortedList, hlist, Except.map, Event.file?] at hf
    | ok entries =>
      obtain ⟨e, he, ⟨hkind, hkept, hf⟩ | ⟨hkind, hkept, rfl⟩⟩ :=
        (mem_below_succ hturn hlist f).1 hf
      · rw [join_ofSegments hn, hp.path_eq hn hlist he] at hf
        obtain ⟨rel, hrel, rfl⟩ :=
          ih (hn.append (areNames_singleton (hp.isName hn hlist he))) hf
        exact ⟨e.name :: rel, .inner hlist he hkind hkept hrel, by simp⟩
      · exact ⟨[e.name], .file hlist he hkind hkept, join_ofSegments hn e.name⟩

/-- A walk through a clear directory finds what is reached.

**Proof sketch.** Induction on the depth to which the directory is clear. The directories that the
walk is inside of are in place and shorter, so none of them has the real path of this one, and the
walk goes on to its entries. -/
lemma mem_below_of_reaches (hp : fs.IsProject root) :
    ∀ {k fuel : Nat} {names above rel : List Text}, k ≤ fuel → AreNames names →
      fs.Clear policy ignore root k names →
      (∀ real ∈ above, ∃ l, AreNames l ∧ FileSystem.InPlaceBy policy fs root l ∧
        l.length < names.length ∧ fs.realPath (inside root l) = real) →
      fs.Reaches ignore root names rel →
      ofSegments (names ++ rel) ∈
        (below fs ignore fuel above (ofSegments names) (inside root names)).filterMap
          Event.file? := by
  intro k
  induction k with
  | zero => exact fun _ _ h => h.elim
  | succ k ih =>
    intro fuel names above rel hle hn hclear habove hrel
    obtain ⟨fuel, rfl⟩ : ∃ n, fuel = n + 1 := ⟨fuel - 1, by omega⟩
    have hplace := hclear.inPlace
    obtain ⟨-, entries, hlist, hbelow⟩ := hclear
    have hfresh : fs.realPath (inside root names) ∉ above := by
      intro hmem
      obtain ⟨l, hl, hpl, hlen, hreal⟩ := habove _ hmem
      exact absurd (hpl.length_eq hl hn hplace hreal) (Nat.ne_of_lt hlen)
    rw [mem_below_succ hfresh hlist]
    cases hrel with
    | @file _ entries' e hlist' he hkind hkept =>
      obtain rfl : entries = entries' := by simpa [hlist] using hlist'
      exact ⟨e, he, .inr ⟨hkind, hkept, (join_ofSegments hn e.name).symm⟩⟩
    | @inner _ entries' e rel hlist' he hkind hkept hrel =>
      obtain rfl : entries = entries' := by simpa [hlist] using hlist'
      refine ⟨e, he, .inl ⟨hkind, hkept, ?_⟩⟩
      rw [join_ofSegments hn, hp.path_eq hn hlist he, List.append_cons names e.name rel]
      refine ih (Nat.le_of_succ_le_succ hle)
        (hn.append (areNames_singleton (hp.isName hn hlist he)))
        (hbelow e he hkind hkept) (fun real hreal => ?_) hrel
      rcases List.mem_cons.1 hreal with rfl | hreal
      · exact ⟨names, hn, hplace, by simp, rfl⟩
      · obtain ⟨l, hl, hpl, hlen, heq⟩ := habove real hreal
        exact ⟨l, hl, hpl, by simp; omega, heq⟩

/-- **The walk from a clear directory** finds exactly what is reached. -/
theorem mem_files_of_clear (hp : fs.IsProject root) {names : List Text} (hn : AreNames names)
    (hdir : fs.kind? (inside root names) = some .directory)
    (hclear : fs.Clear policy ignore root (fs.depthBound + 1) names) (f : Text) :
    f ∈ files fs ignore root (ofSegments names) ↔
      ∃ rel, fs.Reaches ignore root names rel ∧ f = ofSegments (names ++ rel) := by
  have hstart : start fs ignore root (ofSegments names) =
      below fs ignore (fs.depthBound + 1) [] (ofSegments names) (inside root names) := by
    simp [start, absolute_ofSegments hn, FileSystem.isFile, FileSystem.isDirectory, hdir]
  rw [files, hstart]
  constructor
  · exact reaches_of_mem_below hp hn
  · rintro ⟨rel, hrel, rfl⟩
    exact mem_below_of_reaches hp le_rfl hn hclear (by simp) hrel

/-- A walk from a file finds that file. -/
lemma files_of_isFile {names : List Text} (hne : names ≠ []) (hn : AreNames names)
    (hfile : fs.kind? (inside root names) = some .file) :
    files fs ignore root (ofSegments names) = [ofSegments names] := by
  have hnil : (ofSegments names).isEmpty = false := by simpa using ofSegments_ne_nil hne hn
  simp [files, start, absolute_ofSegments hn, FileSystem.isFile, hfile, hnil, Event.file?]

/-- What a walk finds is its base, or a path of names below it. -/
lemma areNames_of_mem_files (hp : fs.IsProject root) {names : List Text} {f : Text}
    (hn : AreNames names) (hf : f ∈ files fs ignore root (ofSegments names)) :
    ∃ rel, f = ofSegments (names ++ rel) ∧ AreNames (names ++ rel) ∧ names ++ rel ≠ [] := by
  simp only [files, start, absolute_ofSegments hn] at hf
  split at hf
  · rename_i hfile
    have hbase : f = ofSegments names := by simpa [Event.file?] using hf
    refine ⟨[], by rw [hbase, List.append_nil], by rwa [List.append_nil], ?_⟩
    rintro hnil
    rw [List.append_nil] at hnil
    simp [hnil] at hfile
  · split at hf
    · obtain ⟨rel, hrel, rfl⟩ := reaches_of_mem_below hp hn hf
      exact ⟨rel, rfl, hrel.areNames hp hn, List.append_ne_nil_of_right_ne_nil _ hrel.ne_nil⟩
    · simp at hf

/-- A walk from what is neither a file nor a directory finds nothing; nor does one from a project
that is a file. -/
lemma files_of_not_directory {names : List Text} (hn : AreNames names)
    (hfile : names = [] ∨ fs.kind? (inside root names) ≠ some .file)
    (hdir : fs.kind? (inside root names) ≠ some .directory) :
    files fs ignore root (ofSegments names) = [] := by
  rcases hfile with rfl | hfile
  · simp [files, start, absolute, FileSystem.isDirectory, show fs.kind? root ≠ _ from hdir]
  · simp [files, start, absolute_ofSegments hn, FileSystem.isFile, FileSystem.isDirectory, hfile,
      hdir]

end Walk

end GlobPreset
