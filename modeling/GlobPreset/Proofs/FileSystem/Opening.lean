import GlobPreset.Proofs.FileSystem.Changes
import GlobPreset.Proofs.FileSystem.Ways

/-!
# Making directories and files at the end of a way

A file is written after the directories that hold it were made. On a disk with links such a request
may lead elsewhere than its path reads, but it never changes what is there: directories are made
where nothing was, and a path at which nothing is found gets a new file. If the path starts with a
way to a directory that is there, the new directories are those that lead to the file.

## Main definitions

* `Disk.Passage.EndsIn` — what is true of where a way ends.
* `Disk.KeepsFiles` — every entry is kept, and what is new are directories.
* `Disk.Opened` — a way leads to a directory, which was there or was made.

## Main results

* `Disk.pass_endsIn` — **a way from a directory ends in a directory**, if it does not fail.
* `Disk.WellFormed.makeDirectories`, `Disk.WellFormed.write` — **requests keep disks well-formed**.
* `Disk.keepsFiles_makeDirectories` — **making directories keeps every entry**, also when it fails.
* `Disk.opened_of_makeLineage` — **where directories were made**, a way leads to the last one.
* `Disk.exists_place_of_write` — **where nothing was found, writing makes one new file**, and that
  is found from then on.
-/

set_option autoImplicit false

namespace GlobPreset.Disk

open GlobPreset.Path Location

variable {d d' : Disk}

/-! ### Where a way ends -/

/-- Nothing is where an entry could be. -/
lemma pass_vacant {aim : Aim} {names : List Text} (segs : List Text) : ∀ current : List Text,
    d.pass aim current segs = .vacant names → d.at? names = none := by
  induction segs with
  | nil => exact fun _ h => nomatch h
  | cons s segs ih =>
    intro current h
    unfold pass at h
    dsimp only at h
    split at h
    · exact ih _ h
    split at h
    · exact ih _ h
    split at h
    · cases h
    split at h
    · cases h
    split at h
    · rename_i hat
      split at h
      · cases h
        exact hat
      · cases h
    · exact ih _ h
    · split at h <;> cases h
    · split at h <;> cases h

/-- Nothing is at the end of a way that ends at a missing entry. -/
lemma passWithin_vacant {aim : Aim} {names : List Text} (links : Nat) :
    ∀ current segs : List Text,
      d.passWithin aim links current segs = .vacant names → d.at? names = none := by
  induction links with
  | zero =>
    intro current segs h
    rw [passWithin] at h
    split at h
    · cases h
    · exact pass_vacant _ _ h
  | succ links ih =>
    intro current segs h
    rw [passWithin] at h
    split at h
    · exact ih _ _ h
    · exact pass_vacant _ _ h

/-- Nothing is where a path ends at a missing entry. -/
lemma locate_vacant {aim : Aim} {path : Text} {names : List Text}
    (h : d.locate aim path = .vacant names) : d.at? names = none := by
  unfold locate at h
  split at h
  · cases h
  split at h
  · cases h
  exact passWithin_vacant _ _ _ h

/-- Where a way through some segments ends: an entry is there; or it could be made in a directory,
under one of the segments; or a link is met in a directory, and some of the segments are to come. -/
def Passage.EndsIn (d : Disk) (segs : List Text) : Passage → Prop
  | found names => (d.at? names).isSome
  | vacant names => ∃ front last, names = front ++ [last] ∧ last ∈ segs ∧ IsStep last ∧
      d.at? front = some .directory
  | failed _ => True
  | atLink directory _ pending => d.at? directory = some .directory ∧ pending ⊆ segs

/-- A way that ends in a directory on its segments does so with one more segment in front. -/
lemma Passage.EndsIn.cons {segs : List Text} {p : Passage} (h : p.EndsIn d segs) (s : Text) :
    p.EndsIn d (s :: segs) := by
  cases p with
  | found names => exact h
  | vacant names =>
    obtain ⟨front, last, heq, hlast, hs, hat⟩ := h
    exact ⟨front, last, heq, List.mem_cons_of_mem _ hlast, hs, hat⟩
  | failed e => trivial
  | atLink directory target pending =>
    exact ⟨h.1, List.Subset.trans h.2 (List.subset_cons_self _ _)⟩

/-- **A way from a directory ends in a directory**, if it does not fail. -/
lemma pass_endsIn (h : d.WellFormed) (aim : Aim) (segs : List Text) : ∀ current : List Text,
    d.at? current = some .directory → (d.pass aim current segs).EndsIn d segs := by
  induction segs with
  | nil =>
    intro current hcurrent
    simp [pass, Passage.EndsIn, hcurrent]
  | cons s segs ih =>
    intro current hcurrent
    rw [pass]
    split
    · exact (ih _ hcurrent).cons s
    rename_i hstay
    split
    · exact (ih _ (h.at?_dropLast hcurrent)).cons s
    rename_i hback
    split
    · trivial
    split
    · trivial
    dsimp only
    have hs : IsStep s := ⟨fun hnil => hstay (.inl hnil), fun hdot => hstay (.inr hdot), hback⟩
    cases hat : d.at? (current ++ [s]) with
    | none =>
      dsimp only
      split
      · exact ⟨current, s, rfl, List.mem_cons_self, hs, hcurrent⟩
      · trivial
    | some node =>
      have hsome : (d.at? (current ++ [s])).isSome := by rw [hat]; rfl
      cases node with
      | directory => exact (ih _ hat).cons s
      | link target =>
        dsimp only
        split
        · exact hsome
        · exact ⟨hcurrent, List.subset_cons_self _ _⟩
      | file content =>
        dsimp only
        split
        · exact hsome
        · trivial
      | special =>
        dsimp only
        split
        · exact hsome
        · trivial

/-- An entry is where a way ends. -/
lemma pass_found (h : d.WellFormed) {aim : Aim} {names segs current : List Text}
    (hcurrent : d.at? current = some .directory) (hfound : d.pass aim current segs = .found names) :
    (d.at? names).isSome := by
  have hends := pass_endsIn h aim segs current hcurrent
  rwa [hfound] at hends

/-- Where an entry could be is a name in a directory. -/
lemma passWithin_place (h : d.WellFormed) {aim : Aim} {names : List Text} (links : Nat) :
    ∀ current segs : List Text, d.at? current = some .directory → (∀ s ∈ segs, .of '/' ∉ s) →
      d.passWithin aim links current segs = .vacant names →
      ∃ front last, names = front ++ [last] ∧ IsName last ∧ d.at? front = some .directory := by
  have hpass : ∀ current segs : List Text, d.at? current = some .directory →
      (∀ s ∈ segs, .of '/' ∉ s) → d.pass aim current segs = .vacant names →
      ∃ front last, names = front ++ [last] ∧ IsName last ∧ d.at? front = some .directory := by
    intro current segs hcurrent hslash hvacant
    have hends := pass_endsIn h aim segs current hcurrent
    rw [hvacant] at hends
    obtain ⟨front, last, heq, hlast, hs, hat⟩ := hends
    exact ⟨front, last, heq, ⟨hs.ne_nil, hslash last hlast, hs.ne_dot, hs.ne_dots⟩, hat⟩
  induction links with
  | zero =>
    intro current segs hcurrent hslash hvacant
    rw [passWithin] at hvacant
    split at hvacant
    · cases hvacant
    · exact hpass _ _ hcurrent hslash hvacant
  | succ links ih =>
    intro current segs hcurrent hslash hvacant
    rw [passWithin] at hvacant
    split at hvacant
    · rename_i directory target pending hlink
      have hends := pass_endsIn h aim segs current hcurrent
      rw [hlink] at hends
      refine ih _ _ (at?_startOf hends.1 _) (List.forall_mem_append.2 ⟨?_, ?_⟩) hvacant
      · exact fun s hs => Text.not_mem_of_mem_splitOn hs
      · exact fun s hs => hslash s (hends.2 hs)
    · exact hpass _ _ hcurrent hslash hvacant

/-- **An entry that is made where a way ends** leaves the disk well-formed. -/
lemma WellFormed.put_of_vacant (h : d.WellFormed) {aim : Aim} {path : Text} {names : List Text}
    (hvacant : d.locate aim path = .vacant names) (node : DiskNode) :
    (d.put names node).WellFormed := by
  have hat := locate_vacant hvacant
  unfold locate at hvacant
  split at hvacant
  · cases hvacant
  split at hvacant
  · cases hvacant
  obtain ⟨front, last, rfl, hlast, hfront⟩ := passWithin_place h _ _ _ at?_nil
    (fun s hs => Text.not_mem_of_mem_splitOn hs) hvacant
  exact h.put ((h.areNames_of_at? hfront).append (areNames_singleton hlast)) hfront
    (by simp [hat]) node

/-- Something is where a way ends. -/
lemma passWithin_found (h : d.WellFormed) {names : List Text} (links : Nat) :
    ∀ current segs : List Text, d.at? current = some .directory →
      d.passWithin .target links current segs = .found names → (d.at? names).isSome := by
  induction links with
  | zero =>
    intro current segs hcurrent hfound
    rw [passWithin] at hfound
    split at hfound
    · cases hfound
    · exact pass_found h hcurrent hfound
  | succ links ih =>
    intro current segs hcurrent hfound
    rw [passWithin] at hfound
    split at hfound
    · rename_i hlink
      exact ih _ _ (at?_startOf (at?_of_atLink h hcurrent hlink) _) hfound
    · exact pass_found h hcurrent hfound

/-! ### What requests do -/

section Put

variable {P : Disk → Prop} (hput : ∀ {d : Disk} {path : Text} (names : List Text), P d →
  d.locate .name path = .vacant names → P (d.put names .directory))
include hput

/-- What is kept when a directory is put where nothing is, is kept when a directory is made sure of.
-/
lemma ensureDirectory_of_put (path : Text) (h : P d) : P (d.ensureDirectory path).disk := by
  unfold ensureDirectory makeDirectory
  cases hlocate : d.locate .name path with
  | vacant names => exact hput names h hlocate
  | found names =>
    dsimp only
    split <;> exact h
  | failed e =>
    dsimp only
    split <;> exact h
  | atLink directory target pending =>
    dsimp only
    split <;> exact h

/-- What is kept when a directory is put where nothing is, is kept when directories are made. -/
lemma makeLineage_of_put (names : List Text) (h : P d) : P (d.makeLineage names).disk := by
  induction names with
  | nil => exact h
  | cons last above ih =>
    unfold makeLineage
    dsimp only
    split
    · split
      · rename_i heq
        rw [heq] at ih
        exact ensureDirectory_of_put hput _ ih
      · exact ih
    · exact ensureDirectory_of_put hput _ h

/-- **Making directories** adds one directory after the other: what each of them keeps is kept, also
if not all of them can be made. -/
lemma makeDirectories_of_put (path : Text) (h : P d) : P (d.makeDirectories path).disk := by
  unfold makeDirectories
  split
  · exact h
  · exact makeLineage_of_put hput _ h

end Put

/-- Making directories leaves the limits. -/
lemma limits_makeDirectories (d : Disk) (path : Text) :
    (d.makeDirectories path).disk.limits = d.limits :=
  makeDirectories_of_put (P := fun d' => d'.limits = d.limits) (fun _ h _ => h) path rfl

/-- **What is written** takes the place of a file, or is a new file, or nothing is written. -/
lemma cases_of_write {path content : Text} (hwrite : d.write path content = .ok d') :
    d' = d ∨ ∃ names, d' = d.put names (.file content) ∧
      ((∃ c, d.at? names = some (.file c)) ∨ d.locate .content path = .vacant names) := by
  unfold Disk.write at hwrite
  split at hwrite
  · cases hwrite
  split at hwrite
  · split at hwrite
    · cases hwrite
    · exact .inr ⟨_, (Except.ok.inj hwrite).symm, .inl ⟨_, ‹_›⟩⟩
    · exact .inl (Except.ok.inj hwrite).symm
  · exact .inr ⟨_, (Except.ok.inj hwrite).symm, .inr ‹_›⟩
  · cases hwrite
  · cases hwrite

namespace WellFormed

variable (h : d.WellFormed)
include h

/-- **Making directories keeps a disk well-formed**, also when it fails. -/
theorem makeDirectories (path : Text) : (d.makeDirectories path).disk.WellFormed :=
  makeDirectories_of_put (fun _ h hvacant => h.put_of_vacant hvacant _) path h

/-- **Writing keeps a disk well-formed.** -/
theorem write {path content : Text} (hwrite : d.write path content = .ok d') : d'.WellFormed := by
  rcases cases_of_write hwrite with rfl | ⟨names, rfl, ⟨c, hat⟩ | hvacant⟩
  · exact h
  · have hne : names ≠ [] := by
      rintro rfl
      cases hat
    obtain ⟨front, last, rfl⟩ := (List.eq_nil_or_concat' names).resolve_left hne
    exact h.put (h.areNames_of_at? hat) (h.at?_of_prefix hat (List.prefix_append _ _) (by simp))
      (by simp [hat]) _
  · exact h.put_of_vacant hvacant _

end WellFormed

/-! ### Requests at the end of a way -/

section End

variable {path : Text} {front n : List Text} {s : Text} {links : Nat}
  (hpath : Path.segments path = front ++ [s]) (hs : IsStep s)
include hpath hs

/-- A path with a segment that is a step is not empty. -/
lemma ne_nil_of_segments : path ≠ [] := by
  rintro rfl
  have hempty : [] ++ [[]] = front ++ [s] := hpath
  exact hs.ne_nil (List.append_inj_right' hempty rfl |> List.cons.inj |>.1).symm

/-- What a path leads to is decided where the way through all but its last segment ends. -/
lemma locate_of_way (hway : Way d links [] front n) (hlinks : links ≤ maxLinks)
    (hfits : d.refusesPath path = false) (aim : Aim) :
    d.locate aim path = d.passWithin aim (maxLinks - links) n [s] := by
  have hlast : [s].all List.isEmpty = false := by
    simpa using hs.ne_nil
  rw [locate, List.isEmpty_eq_false_iff.2 (ne_nil_of_segments hpath hs), if_neg Bool.false_ne_true,
    hfits, if_neg Bool.false_ne_true, hpath]
  exact hway.passWithin_append hlinks hlast

/-- A place for an entry is behind a way. -/
lemma exists_way_of_vacant {names : List Text}
    (hvacant : d.locate .name path = .vacant names) :
    ∃ links ≤ maxLinks, ∃ n, Way d links [] front n ∧ names = n ++ [s] ∧ d.at? names = none ∧
      d.refusesName s = false := by
  have hat := locate_vacant hvacant
  have hlast : [s].all List.isEmpty = false := by
    simpa using hs.ne_nil
  unfold locate at hvacant
  split at hvacant
  · cases hvacant
  split at hvacant
  · cases hvacant
  rw [hpath] at hvacant
  rcases exists_way_or_failed hlast maxLinks [] front with ⟨links, n, hlinks, hway⟩ | ⟨e, he⟩
  · rw [hway.passWithin_append hlinks hlast, passWithin_last hs] at hvacant
    split at hvacant
    · cases hvacant
    rename_i hlong
    refine ⟨links, hlinks, n, hway, ?_, hat, by simpa using hlong⟩
    split at hvacant
    · cases hvacant
      rfl
    · rw [if_pos rfl] at hvacant
      cases hvacant
    · cases hvacant
  · rw [hvacant] at he
    cases he

/-- Where nothing is behind a way, an entry could be, unless its name is too long. -/
lemma locate_of_way_of_none (hway : Way d links [] front n) (hlinks : links ≤ maxLinks)
    (hat : d.at? (n ++ [s]) = none) (aim : Aim) :
    d.locate aim path = .vacant (n ++ [s]) ∨ d.locate aim path = .failed .nameTooLong := by
  by_cases hlong : d.refusesPath path = true
  · have hne := List.isEmpty_eq_false_iff.2 (ne_nil_of_segments hpath hs)
    exact .inr (by rw [locate, hne, if_neg Bool.false_ne_true, if_pos hlong])
  · rw [locate_of_way hpath hs hway hlinks (by simpa using hlong), passWithin_last hs, hat]
    by_cases hname : d.refusesName s = true
    · exact .inr (if_pos hname)
    · exact .inl (if_neg hname)

/-- Where nothing is behind a way, nothing is found. -/
lemma find_of_way_of_none (hway : Way d links [] front n) (hlinks : links ≤ maxLinks)
    (hat : d.at? (n ++ [s]) = none) (found : List Text × DiskNode) : d.find path ≠ .ok found := by
  intro hfind
  obtain ⟨hlocate, -⟩ := find_eq_ok.1 hfind
  rcases locate_of_way_of_none hpath hs hway hlinks hat .target with h | h <;>
  · rw [h] at hlocate
    cases hlocate

/-- Making a directory at the end of a way fails only if its name is taken or too long. -/
lemma makeDirectory_of_way (hway : Way d links [] front n) (hlinks : links ≤ maxLinks) :
    d.makeDirectory path =
      if d.refusesPath path || d.refusesName s then .error .nameTooLong
      else
        match d.at? (n ++ [s]) with
        | none => .ok (d.put (n ++ [s]) .directory)
        | some _ => .error .entryExists := by
  by_cases hlong : d.refusesPath path = true
  · have hne := List.isEmpty_eq_false_iff.2 (ne_nil_of_segments hpath hs)
    simp [makeDirectory, locate, hlong, hne]
  · have hfits : d.refusesPath path = false := by simpa using hlong
    rw [makeDirectory, locate_of_way hpath hs hway hlinks hfits, passWithin_last hs, hfits,
      Bool.false_or]
    by_cases hname : d.refusesName s = true
    · rw [if_pos hname, if_pos hname]
    · rw [if_neg hname, if_neg hname]
      cases d.at? (n ++ [s]) with
      | none => rfl
      | some node => cases node <;> rfl

/-- Making a directory succeeds behind a way, where nothing is. -/
lemma makeDirectory_eq_ok (h : d.makeDirectory path = .ok d') :
    ∃ links ≤ maxLinks, ∃ n, Way d links [] front n ∧ d.refusesName s = false ∧
      d.at? (n ++ [s]) = none ∧ d' = d.put (n ++ [s]) .directory := by
  unfold makeDirectory at h
  split at h
  · cases h
  · rename_i names hvacant
    obtain ⟨links, hlinks, n, hway, rfl, hat, hname⟩ := exists_way_of_vacant hpath hs hvacant
    exact ⟨links, hlinks, n, hway, hname, hat, (Except.ok.inj h).symm⟩
  · cases h
  · cases h

end End

/-! ### What is kept -/

/-- Every entry is kept, and what is new are directories. -/
def KeepsFiles (d d' : Disk) : Prop :=
  ∀ n, d'.at? n = d.at? n ∨ d.at? n = none ∧ d'.at? n = some .directory

namespace KeepsFiles

/-- A disk keeps its own files. -/
lemma refl (d : Disk) : KeepsFiles d d := fun _ => .inl rfl

/-- Keeping files is transitive. -/
lemma trans {d₁ d₂ : Disk} (h : KeepsFiles d d₁) (h' : KeepsFiles d₁ d₂) : KeepsFiles d d₂ := by
  intro n
  rcases h' n with hsame | ⟨hnone, hnew⟩
  · rw [hsame]
    exact h n
  · rcases h n with hsame | ⟨hnone, -⟩
    · exact .inr ⟨hsame ▸ hnone, hnew⟩
    · exact .inr ⟨hnone, hnew⟩

/-- An entry is kept. -/
lemma at?_eq_some (h : KeepsFiles d d') {n : List Text} {node : DiskNode}
    (hat : d.at? n = some node) : d'.at? n = some node := by
  rcases h n with hsame | ⟨hnone, -⟩
  · rw [hsame, hat]
  · rw [hat] at hnone
    cases hnone

/-- Where nothing is, nothing was. -/
lemma at?_eq_none (h : KeepsFiles d d') {n : List Text} (hat : d'.at? n = none) :
    d.at? n = none := by
  rcases h n with hsame | ⟨hnone, -⟩
  · rw [← hsame, hat]
  · exact hnone

/-- A directory where nothing was keeps all files. -/
lemma put {names : List Text} (hat : d.at? names = none) :
    KeepsFiles d (d.put names .directory) := by
  intro n
  by_cases heq : n = names
  · have hne : names ≠ [] := by
      rintro rfl
      cases hat
    subst heq
    exact .inr ⟨hat, at?_put hne _⟩
  · exact .inl (at?_put_of_ne heq _)

end KeepsFiles

/-- Adding a directory keeps every entry. -/
lemma KeepsFiles.put_of_vacant {d₁ : Disk} {path : Text} (names : List Text) (h : KeepsFiles d d₁)
    (hvacant : d₁.locate .name path = .vacant names) : KeepsFiles d (d₁.put names .directory) :=
  h.trans (.put (locate_vacant hvacant))

/-- Making sure of a directory keeps all files. -/
lemma keepsFiles_ensureDirectory (d : Disk) (path : Text) :
    KeepsFiles d (d.ensureDirectory path).disk :=
  ensureDirectory_of_put KeepsFiles.put_of_vacant path (.refl d)

/-- Making directories one above the other keeps all files. -/
lemma keepsFiles_makeLineage (names : List Text) : KeepsFiles d (d.makeLineage names).disk :=
  makeLineage_of_put KeepsFiles.put_of_vacant names (.refl d)

/-- **Making directories keeps every entry**, also when it fails. -/
theorem keepsFiles_makeDirectories (d : Disk) (path : Text) :
    KeepsFiles d (d.makeDirectories path).disk :=
  makeDirectories_of_put KeepsFiles.put_of_vacant path (.refl d)

/-! ### Directories that were made -/

/-- The segments of a path of names that may go back. -/
lemma segments_below {names : List Text} (hne : names ≠ []) (hnames : ∀ s ∈ names, .of '/' ∉ s) :
    Path.segments (below names).toText = [] :: names := by
  have hcut : Path.segments (below names).toText = [] :: Path.segments (ofSegments names) :=
    Text.splitOn_cons_sep _
  rw [hcut]
  exact congrArg _ (Text.splitOn_joinWith (.of '/') hne hnames)

/-- The segments of the path that a directory is made at, among those that lead to it. -/
lemma segments_lineage {base front : List Text} {last : Text} (hbase : ∀ s ∈ base, .of '/' ∉ s)
    (hmore : AreNames (front ++ [last])) :
    Path.segments (below (last :: (base ++ front).reverse).reverse).toText =
      ([] :: (base ++ front)) ++ [last] := by
  rw [List.reverse_cons, List.reverse_reverse, segments_below (by simp), List.cons_append]
  rw [List.append_assoc, List.forall_mem_append]
  exact ⟨hbase, fun s hs => (hmore s hs).noSlash⟩

/-- A way leads to a directory, which was there or was made. -/
structure Opened (d d' : Disk) (segs names : List Text) : Prop where
  /-- Directories lead down to the names, and nothing else was changed. -/
  made : Made d d' names
  /-- The way leads to the last of them. -/
  way : ∃ links ≤ maxLinks, Way d' links [] segs names
  /-- Unless nothing was changed at all, the last of them is new. -/
  isNew : d' = d ∨ d.at? names = none

namespace Opened

variable {front n names : List Text} {s : Text} {links : Nat}

/-- A way that is there. -/
lemma refl (h : d.WellFormed) (hway : Way d links [] front n) (hlinks : links ≤ maxLinks) :
    Opened d d front n where
  made := .refl h (hway.at?_last h at?_nil)
  way := ⟨links, hlinks, hway⟩
  isNew := .inl rfl

/-- A directory that is made at the end of a way. -/
lemma put (h : d.WellFormed) (hway : Way d links [] front n) (hlinks : links ≤ maxLinks)
    (hs : IsName s) (hname : d.refusesName s = false) (hat : d.at? (n ++ [s]) = none) :
    Opened d (d.put (n ++ [s]) .directory) (front ++ [s]) (n ++ [s]) where
  made := by
    have hdirectory := hway.at?_last h at?_nil
    exact (Made.refl h hdirectory).concat ((h.areNames_of_at? hdirectory).append
      (areNames_singleton hs)) hat
  way := by
    have hkeeps := KeepsFiles.put hat
    have hkept : Way (d.put (n ++ [s]) .directory) links [] front n :=
      hway.mono rfl fun _ _ hentry _ => hkeeps.at?_eq_some hentry
    exact ⟨links, hlinks, hkept.append (.enter hs.isStep hname (at?_put (by simp) _) .done)⟩
  isNew := .inr hat

/-- A directory that is made or found behind one that was. -/
lemma trans {d₁ d₂ : Disk} (h : d.WellFormed) (hopened : Opened d d₁ front n)
    (hkeeps : KeepsFiles d₁ d₂) (hmore : Opened d₁ d₂ (front ++ [s]) names) (hs : IsName s) :
    Opened d d₂ (front ++ [s]) names := by
  rcases hopened.isNew with rfl | hnew
  · exact hmore
  have hnone : d.at? (n ++ [s]) = none := h.at?_append_eq_none hnew [s]
  have hnone₁ : d₁.at? (n ++ [s]) = none := by
    rw [hopened.made.at?_eq, if_neg (not_concat_isPrefix n s), hnone]
  -- the way goes on from the new directory, in which there is nothing else
  obtain ⟨links, -, hway⟩ := hopened.way
  obtain ⟨links₂, hlinks₂, hway₂⟩ := hmore.way
  have hkept : Way d₂ links [] front n :=
    hway.mono hmore.made.limits fun _ _ hat _ => hkeeps.at?_eq_some hat
  obtain ⟨first, second, mid, hfirst, hsecond, -⟩ := hway₂.split
  obtain ⟨-, rfl⟩ := hkept.unique hfirst
  obtain rfl : names = n ++ [s] := by
    cases hsecond with
    | stay hstay _ => exact absurd hstay (not_or.2 ⟨hs.ne_nil, hs.ne_dot⟩)
    | back _ => exact absurd rfl hs.ne_dots
    | enter _ _ _ hdone =>
      cases hdone
      rfl
    | follow _ _ hat _ =>
      rcases hkeeps (n ++ [s]) with hsame | ⟨-, hdirectory⟩
      · rw [hsame, hnone₁] at hat
        cases hat
      · rw [hdirectory] at hat
        cases hat
  exact ⟨hopened.made.trans hmore.made, ⟨links₂, hlinks₂, hway₂⟩, .inr hnone⟩

end Opened

/-- Making a directory that may be there already opens a way to it. -/
lemma opened_of_ensureDirectory (h : d.WellFormed) {path : Text} {front : List Text} {s : Text}
    (hpath : Path.segments path = front ++ [s]) (hs : IsName s)
    (hok : (d.ensureDirectory path).failure = none) :
    ∃ names, Opened d (d.ensureDirectory path).disk (front ++ [s]) names := by
  unfold ensureDirectory at hok ⊢
  cases hmade : d.makeDirectory path with
  | ok d' =>
    obtain ⟨links, hlinks, n, hway, hname, hat, rfl⟩ := makeDirectory_eq_ok hpath hs.isStep hmade
    exact ⟨_, .put h hway hlinks hs hname hat⟩
  | error e =>
    simp only [hmade] at hok ⊢
    split at hok
    · rename_i hprobe
      obtain ⟨-, names, node, hfind, hnode⟩ := kind?_eq_some.1 (probe_eq_some.1 hprobe)
      cases node with
      | directory =>
        obtain ⟨links, hlinks, hway⟩ := exists_way_of_find h hfind
        rw [hpath] at hway
        exact ⟨names, .refl h hway hlinks⟩
      | file content => cases hnode
      | link target => cases hnode
      | special => cases hnode
    · cases hok
    · cases hok

/-- **Where directories were made behind a way**, the way to the last one leads to a directory that
was there, or to new directories that lie in one another.

**Proof sketch.** Induction on the names from the last one on. Making the last directory fails for a
missing one only if the names in front of it were not there either; then these are made first. -/
theorem opened_of_makeLineage (h : d.WellFormed) {base more n : List Text} {links : Nat}
    (hbase : ∀ s ∈ base, .of '/' ∉ s) (hway : Way d links [] base n) (hlinks : links ≤ maxLinks)
    (hmore : AreNames more) (hne : more ≠ [])
    (hok : (d.makeLineage (base ++ more).reverse).failure = none) :
    ∃ names, Opened d (d.makeLineage (base ++ more).reverse).disk ([] :: (base ++ more)) names := by
  induction more using List.reverseRecOn with
  | nil => exact absurd rfl hne
  | append_singleton front last ih =>
    have hlast : IsName last := hmore last (by simp)
    have hpath := segments_lineage hbase hmore
    rw [← List.append_assoc, List.reverse_append, List.reverse_singleton, List.singleton_append]
      at hok ⊢
    rw [makeLineage] at hok ⊢
    split at hok
    · rename_i hmissing
      by_cases hfront : front = []
      · -- the way leads to the directory that would hold the missing one
        subst hfront
        have hstart : Way d links [] ([] :: (base ++ [])) n := by
          rwa [List.append_nil, Way.nil_cons_iff]
        rw [makeDirectory_of_way hpath hlast.isStep hstart hlinks] at hmissing
        split at hmissing
        · cases hmissing
        · split at hmissing <;> cases hmissing
      cases habove : d.makeLineage (base ++ front).reverse with
      | mk d₁ failure =>
        cases failure with
        | some e =>
          simp only [habove] at hok
          cases hok
        | none =>
          rw [habove] at ih
          obtain ⟨n₁, hopened⟩ := ih hmore.left hfront rfl
          simp only [habove] at hok ⊢
          obtain ⟨names, hmade⟩ :=
            opened_of_ensureDirectory hopened.made.wellFormed hpath hlast hok
          exact ⟨names, hopened.trans h (keepsFiles_ensureDirectory d₁ _) hmade hlast⟩
    · exact opened_of_ensureDirectory h hpath hlast hok

/-- Behind a way, a single directory is there, or it is made. -/
lemma makeLineage_of_way {base n : List Text} {s : Text} {links : Nat}
    (hbase : ∀ s ∈ base, .of '/' ∉ s) (hway : Way d links [] base n) (hlinks : links ≤ maxLinks)
    (hs : IsName s) (hok : (d.makeLineage (base ++ [s]).reverse).failure = none) :
    (d.makeLineage (base ++ [s]).reverse).disk = d ∨
      d.refusesName s = false ∧ d.at? (n ++ [s]) = none ∧
        (d.makeLineage (base ++ [s]).reverse).disk = d.put (n ++ [s]) .directory := by
  have hpath : Path.segments (below (s :: base.reverse).reverse).toText = ([] :: base) ++ [s] := by
    simpa using segments_lineage hbase (show AreNames ([] ++ [s]) from areNames_singleton hs)
  have hmake := makeDirectory_of_way hpath hs.isStep (Way.nil_cons_iff.2 hway) hlinks
  rw [List.reverse_append, List.reverse_singleton, List.singleton_append] at hok ⊢
  rw [makeLineage] at hok ⊢
  split at hok
  · -- the directory that would hold it is not missing
    rename_i hmissing
    rw [hmake] at hmissing
    split at hmissing
    · cases hmissing
    · split at hmissing <;> cases hmissing
  · unfold ensureDirectory
    rw [hmake]
    split
    · rename_i hmade
      split at hmade
      · cases hmade
      · rename_i hfits
        rw [Bool.or_eq_true, not_or, Bool.not_eq_true, Bool.not_eq_true] at hfits
        split at hmade
        · exact .inr ⟨hfits.2, ‹_›, (Except.ok.inj hmade).symm⟩
        · cases hmade
    · exact .inl (by split <;> rfl)

/-! ### Files that are made -/

section Place

variable {place : List Text} (hplace : d.at? place = none) (content : Text)
include hplace

/-- A way without links to a place for a file ends at the file once that is made, and a way that
meets a link still meets it. -/
lemma pass_put (segs : List Text) : ∀ {current : List Text} {p : Passage},
    d.pass .content current segs = p →
      (p = .vacant place ∨ ∃ directory target pending, p = .atLink directory target pending) →
      (d.put place (.file content)).pass .target current segs =
        match p with
        | .vacant names => .found names
        | p => p := by
  have hne : place ≠ [] := by
    rintro rfl
    cases hplace
  have hfailed : ∀ e, ¬ (Passage.failed e = .vacant place ∨
      ∃ directory target pending, Passage.failed e = .atLink directory target pending) := by
    rintro e (h | ⟨_, _, _, h⟩) <;> cases h
  have hfound : ∀ names, ¬ (Passage.found names = .vacant place ∨
      ∃ directory target pending, Passage.found names = .atLink directory target pending) := by
    rintro names (h | ⟨_, _, _, h⟩) <;> cases h
  induction segs with
  | nil =>
    intro current p h hp
    subst h
    exact absurd hp (hfound _)
  | cons s segs ih =>
    intro current p h hp
    have hname : (d.put place (.file content)).refusesName s = d.refusesName s := rfl
    unfold pass at h ⊢
    split at h
    · rename_i hstay
      rw [if_pos hstay]
      exact ih h hp
    rename_i hstay
    rw [if_neg hstay]
    split at h
    · rename_i hback
      rw [if_pos hback]
      exact ih h hp
    rename_i hback
    rw [if_neg hback, if_neg (by simp), hname]
    split at h
    · exact absurd (h ▸ hp) (hfailed _)
    split at h
    · exact absurd (h ▸ hp) (hfailed _)
    rename_i hlong
    rw [if_neg hlong]
    dsimp only at h ⊢
    cases hat : d.at? (current ++ [s]) with
    | none =>
      rw [hat] at h
      dsimp only at h
      split at h
      · rename_i hlast
        subst h
        obtain rfl : current ++ [s] = place := by
          rcases hp with hp | ⟨_, _, _, hp⟩
          · exact Passage.vacant.inj hp
          · cases hp
        rw [at?_put hne]
        simp only [hlast, if_true]
      · exact absurd (h ▸ hp) (hfailed _)
    | some node =>
      have hother : current ++ [s] ≠ place := by
        rintro rfl
        rw [hplace] at hat
        cases hat
      rw [hat] at h
      rw [at?_put_of_ne hother, hat]
      cases node with
      | directory => exact ih h hp
      | link target =>
        have hfollowed : ∀ aim : Aim, aim ≠ .name → (segs.isEmpty && aim == .name) = false := by
          intro aim haim
          simp [haim]
        simp only [hfollowed _ (show Aim.content ≠ .name by decide), Bool.false_eq_true,
          if_false] at h
        simp only [hfollowed _ (show Aim.target ≠ .name by decide), Bool.false_eq_true, if_false,
          ← h]
      | file c =>
        dsimp only at h
        split at h
        · exact absurd (h ▸ hp) (hfound _)
        · exact absurd (h ▸ hp) (hfailed _)
      | special =>
        dsimp only at h
        split at h
        · exact absurd (h ▸ hp) (hfound _)
        · exact absurd (h ▸ hp) (hfailed _)

/-- A way to a new file leads to it when it is there. -/
lemma passWithin_put (links : Nat) : ∀ current segs : List Text,
    d.passWithin .content links current segs = .vacant place →
      (d.put place (.file content)).passWithin .target links current segs = .found place := by
  induction links with
  | zero =>
    intro current segs h
    rw [passWithin] at h ⊢
    split at h
    · cases h
    · rw [pass_put hplace content segs h (.inl rfl)]
  | succ links ih =>
    intro current segs h
    rw [passWithin] at h ⊢
    split at h
    · rename_i hlink
      rw [pass_put hplace content segs hlink (.inr ⟨_, _, _, rfl⟩)]
      exact ih _ _ h
    · rw [pass_put hplace content segs h (.inl rfl)]

end Place

/-- What is written has a path that is taken. -/
lemma isRefused_of_write {path content : Text} (h : d.write path content = .ok d') :
    isRefused path = false := by
  unfold write at h
  split at h
  · cases h
  · simpa using ‹¬ isRefused path = true›

/-- What asking finds nothing at, nothing is found at. -/
lemma find_of_probe {path : Text} (hrefused : isRefused path = false)
    (h : d.probe path = .ok none) (found : List Text × DiskNode) : d.find path ≠ .ok found := by
  intro hfind
  rw [probe, hrefused, hfind] at h
  cases h

/-- **Where nothing is found, writing makes one new file**, and that is found from then on. -/
theorem exists_place_of_write (h : d.WellFormed) {path content : Text}
    (hmissing : ∀ found, d.find path ≠ .ok found) (hwrite : d.write path content = .ok d') :
    ∃ place, d.locate .content path = .vacant place ∧ d.at? place = none ∧
      d' = d.put place (.file content) ∧ d'.find path = .ok (place, .file content) := by
  unfold write at hwrite
  split at hwrite
  · cases hwrite
  have hvacant : ∃ place, d.locate .content path = .vacant place ∧
      d' = d.put place (.file content) := by
    split at hwrite
    · rename_i names hfound
      rcases d.locate_content path with hcontent | hcontent
      · rw [hcontent] at hfound
        have hsome : (d.at? names).isSome := by
          unfold locate at hfound
          split at hfound
          · cases hfound
          split at hfound
          · cases hfound
          exact passWithin_found h _ _ _ at?_nil hfound
        obtain ⟨node, hat⟩ := Option.isSome_iff_exists.1 hsome
        exact absurd (find_eq_ok.2 ⟨hfound, hat⟩) (hmissing _)
      · rw [hcontent] at hfound
        cases hfound
    · rename_i place hvacant
      exact ⟨place, hvacant, (Except.ok.inj hwrite).symm⟩
    · cases hwrite
    · cases hwrite
  obtain ⟨place, hvacant, rfl⟩ := hvacant
  have hat := locate_vacant hvacant
  refine ⟨place, hvacant, hat, rfl, find_eq_ok.2 ⟨?_, at?_put ?_ _⟩⟩
  · unfold locate at hvacant ⊢
    split at hvacant
    · cases hvacant
    rename_i hne
    split at hvacant
    · cases hvacant
    rename_i hfits
    rw [if_neg hne]
    rw [if_neg (show ¬ (d.put place (.file content)).refusesPath path = true from hfits)]
    exact passWithin_put hat content _ _ _ hvacant
  · rintro rfl
    cases hat

/-- **Where nothing is behind a way, writing puts the new file there.** -/
lemma put_of_write_of_way (h : d.WellFormed) {path content s : Text} {front n : List Text}
    {links : Nat} (hpath : Path.segments path = front ++ [s]) (hs : IsStep s)
    (hway : Way d links [] front n) (hlinks : links ≤ maxLinks)
    (hat : d.at? (n ++ [s]) = none) (hwrite : d.write path content = .ok d') :
    d.locate .content path = .vacant (n ++ [s]) ∧ d' = d.put (n ++ [s]) (.file content) ∧
      d'.find path = .ok (n ++ [s], .file content) := by
  obtain ⟨place, hvacant, -, hput, hfind⟩ :=
    exists_place_of_write h (find_of_way_of_none hpath hs hway hlinks hat) hwrite
  have hplace : place = n ++ [s] := by
    rcases locate_of_way_of_none hpath hs hway hlinks hat .content with hthere | hlong
    · rw [hthere] at hvacant
      exact (Passage.vacant.inj hvacant).symm
    · rw [hlong] at hvacant
      cases hvacant
  rw [hplace] at hvacant hput hfind
  exact ⟨hvacant, hput, hfind⟩

end GlobPreset.Disk
