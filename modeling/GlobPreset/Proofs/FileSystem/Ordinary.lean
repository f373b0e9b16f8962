import GlobPreset.Proofs.FileSystem.Disk
import GlobPreset.Proofs.FileSystem.Memory
import GlobPreset.Proofs.FileSystem.Survey
import GlobPreset.Proofs.FileSystem.Unlinked
import GlobPreset.Proofs.Path.Ordinary

/-!
# Projects of ordinary files

A project whose files have ordinary paths, as far as the directories that hold them are in place.
What a walk reaches is a file: no path leads on from there.

## Main definitions

* `FileSystem.HasOrdinaryFiles` — every file that a directory in place lists has an ordinary path.
* `MemoryTree.IsOrdinary` — every path that is registered in the project is ordinary.
* `Disk.IsUnlinked` — no entry of a disk is a link.
* `Disk.IsOrdinary` — no entry is a link, and the files of the project have ordinary paths.

## Main results

* `FileSystem.Reaches.not_above` — nothing lies below what a walk reaches.
* `MemoryTree.IsOrdinary.hasOrdinaryFiles`, `Disk.IsOrdinary.hasOrdinaryFiles` — the files of an
  ordinary tree or disk are ordinary.
-/

set_option autoImplicit false

namespace GlobPreset

open GlobPreset.Path

namespace FileSystem

/-- Every file that a directory in place lists has an ordinary path. -/
def HasOrdinaryFiles (fs : FileSystem) (root : Text) : Prop :=
  ∀ {names : List Text} {entries : List Entry} {e : Entry}, AreNames names →
    fs.InPlace root names → fs.list (inside root names) = .ok entries → e ∈ entries →
    e.kind = .file → IsOrdinary (ofSegments (names ++ [e.name]))

variable {fs : FileSystem} {ignore : IgnoreRules} {root : Text}

/-- **Nothing lies below what a walk reaches.** -/
lemma Reaches.not_above (hp : fs.IsProject root) {names rel : List Text}
    (h : fs.Reaches ignore root names rel) {more : List Text} (hmore : more ≠ [])
    (hn : AreNames (names ++ rel ++ more)) :
    fs.kind? (inside root (names ++ rel ++ more)) = none := by
  induction h with
  | @file names entries e hlist he hkind _ =>
    by_contra hsome
    have hdir := hp.directory_above hmore hn (Option.isSome_iff_ne_none.2 hsome)
    have hname : IsName e.name := hp.isName hn.left.left hlist he
    obtain ⟨e', he', hsame, hdirectory⟩ := hp.listed hn.left.left hname hdir hlist
    rw [hp.entry_unique hn.left.left hlist he' he hsame, hkind] at hdirectory
    cases hdirectory
  | inner hlist he hkind _ _ ih =>
    rw [List.append_cons] at hn ⊢
    exact ih hn

end FileSystem

/-- A file of a project, by its names. -/
lemma FileSystem.HasFile.kind? {fs : FileSystem} {root f : Text} (h : fs.HasFile root f) :
    fs.kind? (inside root (segments f)) = some .file := by
  have hfile := h.2
  rw [absolute_of_isPlain h.1] at hfile
  simpa [FileSystem.isFile] using hfile

namespace MemoryTree

open Location

/-- Every path that is registered in the project is ordinary. -/
def IsOrdinary (t : MemoryTree) : Prop :=
  ∀ l ∈ t.locations, t.root.segments <+: l.segments → l.segments ≠ t.root.segments →
    Path.IsOrdinary (ofSegments (l.segments.drop t.root.segments.length))

instance (t : MemoryTree) : Decidable t.IsOrdinary :=
  inferInstanceAs (Decidable (∀ l ∈ t.locations, _))

/-- **The files of an ordinary tree are ordinary**, if no link leads to the project. -/
lemma IsOrdinary.hasOrdinaryFiles {t : MemoryTree} (h : t.WellFormed) (hord : t.IsOrdinary)
    (hroot : t.realNames t.root.toText = t.root.segments) :
    t.fileSystem.HasOrdinaryFiles t.root.toText := by
  intro names entries e hn hplace hlist he _
  have hproper : t.root.IsProper := h.root
  change t.list (inside t.root.toText names) = _ at hlist
  have hinside := hproper.inside hn
  rw [hinside] at hlist
  obtain ⟨real, hreal, hnames, -, rfl⟩ := list_eq_ok h (hproper.further hn) hlist
  obtain ⟨name, hname, rfl⟩ := List.mem_map.1 he
  rw [mem_childNames] at hname
  -- a directory in place has the names of the project in front of its own
  have hsplit : real = t.root.segments ++ names := by
    by_cases hne : names = []
    · subst hne
      rw [← hinside, inside_nil, hroot] at hnames
      rw [← hnames, List.append_nil]
    · have hplace : (Location.below (t.realNames (inside t.root.toText names))).toText = _ :=
        hplace.resolve_left hne
      rw [trimmedRoot_append h hroot hne, hinside, hnames] at hplace
      exact ofSegments_injective hreal (hproper.names.append hn) (List.cons.inj hplace).2
  subst hsplit
  have hsegs : (Location.below (t.root.segments ++ names)).segments ++ [name] =
      t.root.segments ++ (names ++ [name]) := List.append_assoc _ _ _
  have hmem := hord _ hname
  simp only [hsegs] at hmem
  have hdrop := hmem (List.prefix_append _ _) (by simp)
  rwa [List.drop_left] at hdrop

end MemoryTree

/-! ### Disks without links -/

/-- The entry is a link. -/
def DiskNode.isLink : DiskNode → Bool
  | .link _ => true
  | _ => false

namespace Disk

variable {d : Disk} {l : Location}

/-- No entry is a link. -/
def IsUnlinked (d : Disk) : Prop := ∀ n ∈ d.nodes, n.2.isLink = false

instance (d : Disk) : Decidable d.IsUnlinked :=
  inferInstanceAs (Decidable (∀ n ∈ d.nodes, n.2.isLink = false))

namespace IsUnlinked

variable (h : d.IsUnlinked) (hd : d.WellFormed)
include h hd

/-- Nothing on the disk is a link. -/
lemma at?_ne_link (names : List Text) (target : Text) : d.at? names ≠ some (.link target) := by
  intro hat
  have hne : names ≠ [] := by
    rintro rfl
    cases hat
  exact absurd (h _ ((hd.at?_eq_some hne).1 hat)) (by simp [DiskNode.isLink])

/-- A way through names ends at these names, if it does not end early. -/
lemma pass_names {segs : List Text} (hn : AreNames segs) :
    ∀ current : List Text, (∃ e, d.pass .target current segs = .failed e) ∨
      (∃ names, d.pass .target current segs = .vacant names) ∨
      d.pass .target current segs = .found (current ++ segs) := by
  induction segs with
  | nil => exact fun _ => .inr (.inr (by rw [List.append_nil]; rfl))
  | cons s segs ih =>
    intro current
    have hs : IsName s := hn s List.mem_cons_self
    have hskip : ¬ (s = [] ∨ s = [.of '.']) := fun hor => hor.elim hs.ne_nil hs.ne_dot
    rw [pass, if_neg hskip, if_neg hs.ne_dots, if_neg (by simp)]
    by_cases hrefused : d.refusesName s = true
    · exact .inl ⟨_, if_pos hrefused⟩
    rw [if_neg hrefused]
    have hrest := ih (fun t ht => hn t (List.mem_cons_of_mem s ht)) (current ++ [s])
    rw [List.append_assoc, List.singleton_append] at hrest
    dsimp only
    cases hat : d.at? (current ++ [s]) with
    | none => cases segs <;> simp
    | some node =>
      cases node with
      | directory => exact hrest
      | link target => exact absurd hat (h.at?_ne_link hd _ _)
      | file content => cases segs <;> simp
      | special => cases segs <;> simp

/-- What a path leads to stands at its own names. -/
lemma names_of_find {place : Location} (hplace : place.IsProper) {names : List Text}
    {node : DiskNode} (hfind : d.find place.toText = .ok (names, node)) :
    names = place.segments := by
  obtain ⟨-, hpass, -⟩ := (find_toText hplace).1 hfind
  rw [maxLinks, passWithin] at hpass
  rcases h.pass_names hd hplace.names [] with ⟨e, hend⟩ | ⟨n, hend⟩ | hend
  · simp [hend] at hpass
  · simp [hend] at hpass
  · simpa [hend] using hpass.symm

end IsUnlinked

/-- No entry is a link, and the files of the project have ordinary paths. -/
structure IsOrdinary (d : Disk) (l : Location) : Prop where
  /-- No entry is a link. -/
  unlinked : ∀ n ∈ d.nodes, n.2.isLink = false
  /-- Files have ordinary paths. -/
  ordinary : ∀ n ∈ d.nodes, kindOf n.2 = .file → l.segments <+: n.1 →
    Path.IsOrdinary (ofSegments (n.1.drop l.segments.length))

instance (d : Disk) (l : Location) : Decidable (d.IsOrdinary l) :=
  decidable_of_iff
    ((∀ n ∈ d.nodes, n.2.isLink = false) ∧ ∀ n ∈ d.nodes, kindOf n.2 = .file →
      l.segments <+: n.1 → Path.IsOrdinary (ofSegments (n.1.drop l.segments.length)))
    ⟨fun ⟨h₁, h₂⟩ => ⟨h₁, h₂⟩, fun h => ⟨h.unlinked, h.ordinary⟩⟩

namespace IsOrdinary

variable (h : d.IsOrdinary l)
include h

/-- An ordinary disk has no links. -/
lemma isUnlinked : d.IsUnlinked := h.unlinked

/-- **The files of an ordinary disk are ordinary.** -/
theorem hasOrdinaryFiles (hd : d.WellFormed) (hl : l.IsProper) :
    d.fileSystem.HasOrdinaryFiles l.toText := by
  intro names entries e hn _ hlist he hkind
  change d.list (inside l.toText names) = _ at hlist
  rw [hl.inside hn] at hlist
  obtain ⟨-, n, hfind, rfl⟩ := list_eq_ok.1 hlist
  obtain rfl := h.isUnlinked.names_of_find hd (hl.further hn) hfind
  obtain ⟨name, hname, rfl⟩ := List.mem_map.1 he
  obtain ⟨⟨_, node⟩, hnode, rfl⟩ := List.mem_map.1 (mem_childNames.1 hname)
  have hsplit : l.segments ++ names ++ [name] = l.segments ++ (names ++ [name]) :=
    List.append_assoc _ _ _
  have hfile : kindOf node = .file := by
    have hat := (hd.at?_eq_some (by simp)).2 hnode
    rw [entry, hat] at hkind
    cases node with
    | link target => exact absurd hat (h.isUnlinked.at?_ne_link hd _ _)
    | file content => rfl
    | directory => exact hkind
    | special => exact hkind
  have hordinary := h.ordinary _ hnode hfile (hsplit ▸ List.prefix_append _ _)
  rw [hsplit, List.drop_left] at hordinary
  rwa [entry_name]

end IsOrdinary

end Disk

end GlobPreset
