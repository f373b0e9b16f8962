import Mathlib.Data.List.Nodup
import GlobPreset.Proofs.Text.Folding
import GlobPreset.Scan

/-!
# Projects

What a walk and a scan rely on. A project is a path under which a file system answers coherently:
the listing of a directory holds whatever a path of one more name leads to, each name once, and
what contains something is a directory. A directory is in place if no link was followed on the way
to it from the project.

## Main definitions

* `FileSystem.IsProject` — the answers below a path are coherent.
* `FileSystem.InPlace` — a directory is reached from the project without links.
* `FileSystem.InPlaceBy` — the same, as far as a case policy tells.

## Main results

* `FileSystem.IsProject.directory_above` — whatever contains something is a directory.
* `FileSystem.InPlaceBy.length_eq` — directories in place have different real paths, unless they are
  equally deep.
* `FileSystem.inPlaceBy_of_misplaced?` — a directory that a scan does not find misplaced is in
  place.

## Design

Nothing is asked of links to directories but that listings show what they lead to. That is enough
for the walks that matter: below a directory that was scanned, every directory is in place.
-/

set_option autoImplicit false

namespace GlobPreset.FileSystem

open GlobPreset.Path

variable {fs : FileSystem} {root : Text}

/-! ### Coherent answers -/

/-- The answers below a path are coherent. -/
structure IsProject (fs : FileSystem) (root : Text) : Prop where
  /-- An entry has a name. -/
  isName : ∀ {names entries e}, AreNames names → fs.list (inside root names) = .ok entries →
    e ∈ entries → IsName e.name
  /-- The path of an entry is that of its directory and its name. -/
  path_eq : ∀ {names entries e}, AreNames names → fs.list (inside root names) = .ok entries →
    e ∈ entries → e.path = inside root (names ++ [e.name])
  /-- No two entries of a directory have one name. -/
  nodup : ∀ {names entries}, AreNames names → fs.list (inside root names) = .ok entries →
    (entries.map Entry.name).Nodup
  /-- What a path leads to is an entry of its directory. -/
  listed : ∀ {names name kind entries}, AreNames names → IsName name →
    fs.kind? (inside root (names ++ [name])) = some kind →
    fs.list (inside root names) = .ok entries → ∃ e ∈ entries, e.name = name ∧ e.kind = kind
  /-- What contains something is a directory. -/
  parent_directory : ∀ {names name}, AreNames names → IsName name →
    (fs.kind? (inside root (names ++ [name]))).isSome →
    fs.kind? (inside root names) = some .directory
  /-- The real path of the project has a slash. -/
  slash_mem : .of '/' ∈ fs.realPath root

namespace IsProject

variable (h : fs.IsProject root)
include h

/-- **Whatever contains something is a directory**, however deep below it that stands. -/
lemma directory_above {names rest : List Text} (hrest : rest ≠ [])
    (hn : AreNames (names ++ rest)) (hsome : (fs.kind? (inside root (names ++ rest))).isSome) :
    fs.kind? (inside root names) = some .directory := by
  induction rest using List.reverseRecOn with
  | nil => exact absurd rfl hrest
  | append_singleton rest name ih =>
    rw [← List.append_assoc] at hn hsome
    have hdir : fs.kind? (inside root (names ++ rest)) = some .directory :=
      h.parent_directory hn.left (hn.right name (List.mem_singleton_self name)) hsome
    by_cases hr : rest = []
    · subst hr
      simpa using hdir
    · exact ih hr hn.left (by rw [hdir]; rfl)

/-- A file contains nothing. -/
lemma not_below_file {names rest : List Text} (hrest : rest ≠ [])
    (hn : AreNames (names ++ rest)) (hfile : fs.kind? (inside root names) = some .file) :
    fs.kind? (inside root (names ++ rest)) = none := by
  cases hk : fs.kind? (inside root (names ++ rest)) with
  | none => rfl
  | some k =>
    have hdir := h.directory_above hrest hn (by rw [hk]; rfl)
    rw [hfile] at hdir
    cases hdir

/-- The entry of a name is unique. -/
lemma entry_unique {names : List Text} {entries : List Entry} (hn : AreNames names)
    (hlist : fs.list (inside root names) = .ok entries) {e e' : Entry} (he : e ∈ entries)
    (he' : e' ∈ entries) (hname : e.name = e'.name) : e = e' :=
  List.inj_on_of_nodup_map (h.nodup hn hlist) he he' hname

end IsProject

/-! ### Directories in place -/

/-- The real path of the project without slashes at its end. -/
def trimmedRoot (fs : FileSystem) (root : Text) : Text :=
  Text.dropEndWhile ([.of '/'] : Text).contains (fs.realPath root)

/-- The names lead to a directory without any link on the way: its real path is that of the project
continued by the names. -/
def InPlace (fs : FileSystem) (root : Text) (names : List Text) : Prop :=
  names = [] ∨ fs.realPath (inside root names) = fs.trimmedRoot root ++ .of '/' :: ofSegments names

/-- What a scan compares of a directory that it does not find misplaced. -/
lemma misplaced?_eq_none {s : Scanner} (hslash : .of '/' ∈ s.fs.realPath s.root)
    {directory : Text} : s.misplaced? directory = none ↔
      s.isInside (s.fs.realPath (absolute s.root directory)) = true ∧
        s.policy.key (s.fs.realPath (absolute s.root directory)) =
          s.policy.key (s.fs.trimmedRoot s.root ++ .of '/' :: directory) := by
  have hsep : Scanner.separatorOf s.realRoot = [.of '/'] := by
    simp [Scanner.separatorOf, hslash, Scanner.realRoot]
  have hself : Text.joinWith [.of '/'] (segments directory) = directory :=
    ofSegments_segments directory
  have hexpected : Text.dropEndWhile ([.of '/'] : Text).contains s.realRoot ++ [.of '/'] ++
      Text.joinWith [.of '/'] (segments directory) =
        s.fs.trimmedRoot s.root ++ .of '/' :: directory := by
    rw [hself, List.append_assoc]
    rfl
  unfold Scanner.misplaced?
  simp only [hsep, hexpected]
  cases s.isInside (s.fs.realPath (absolute s.root directory)) <;> simp

/-- The names lead to a directory in place as far as a case policy tells. -/
def InPlaceBy (policy : CasePolicy) (fs : FileSystem) (root : Text) (names : List Text) : Prop :=
  names = [] ∨ policy.key (fs.realPath (inside root names)) =
    policy.key (fs.trimmedRoot root ++ .of '/' :: ofSegments names)

/-- Where letter case counts, the policy tells all. -/
lemma inPlaceBy_sensitive {names : List Text} :
    InPlaceBy .sensitive fs root names ↔ fs.InPlace root names :=
  Iff.rfl

/-- **The real path of a directory in place** has as many names more than that of the project as
lead to the directory. -/
lemma InPlaceBy.length_names {policy : CasePolicy} {names : List Text} (hn : AreNames names)
    (h : InPlaceBy policy fs root names) :
    (Path.names (fs.realPath (inside root names))).length =
      (Path.names (fs.realPath root)).length + names.length := by
  rcases h with rfl | h
  · rfl
  by_cases hne : names = []
  · subst hne
    rfl
  have hkeys := congrArg (fun path => (Path.names path).length) h
  simp only [names_key, List.length_map] at hkeys
  rw [hkeys, names_append_slash, names_ofSegments hne hn, trimmedRoot, names_dropEndSlashes,
    List.length_append]

/-- **Directories in place have different real paths**, unless they are equally deep. -/
lemma InPlaceBy.length_eq {policy : CasePolicy} {l m : List Text} (hl : AreNames l)
    (hm : AreNames m) (hpl : InPlaceBy policy fs root l) (hpm : InPlaceBy policy fs root m)
    (heq : fs.realPath (inside root l) = fs.realPath (inside root m)) : l.length = m.length := by
  have hdepth := hpl.length_names hl
  rw [heq, hpm.length_names hm] at hdepth
  exact Nat.add_left_cancel hdepth.symm

/-- **A directory that a scan does not find misplaced is in place.** -/
lemma inPlaceBy_of_misplaced? {s : Scanner} (hslash : .of '/' ∈ s.fs.realPath s.root)
    {names : List Text} (hn : AreNames names)
    (h : (if (ofSegments names).isEmpty then none else s.misplaced? (ofSegments names)) = none) :
    InPlaceBy s.policy s.fs s.root names := by
  by_cases hne : names = []
  · exact .inl hne
  · have hnil : (ofSegments names).isEmpty = false := by simpa using ofSegments_ne_nil hne hn
    rw [hnil, if_neg Bool.false_ne_true] at h
    have hkeys := ((misplaced?_eq_none hslash).1 h).2
    rw [absolute_ofSegments hn] at hkeys
    exact .inr hkeys

end GlobPreset.FileSystem
