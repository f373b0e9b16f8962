import GlobPreset.Proofs.FileSystem.Agreement
import GlobPreset.Proofs.FileSystem.Ordinary
import GlobPreset.Proofs.Path.Keys

/-!
# Projects whose paths are told apart

A case policy compares paths by their keys. Where no directory has two names of one key, paths that
lead anywhere are the same if they are compared alike, and a directory that is in place as far as
the policy tells is in place. Where letter case counts, this is no condition at all.

## Main definitions

* `FileSystem.Shows` — a name leads somewhere from a directory, or is listed there.
* `FileSystem.Leads` — every name of a path is shown where it stands.
* `FileSystem.IsToldApart` — a case policy tells the paths of a project apart.
* `MemoryTree.IsToldApart` — a case policy tells the locations of a tree apart.

## Main results

* `FileSystem.IsToldApart.eq_of_keys_eq` — **paths that are compared alike are the same**.
* `FileSystem.IsToldApart.discerns` — a directory is discerned from whatever else leads a path.
* `FileSystem.IsToldApart.isOrdinary` — what a clear walk reaches is ordinary.
* `MemoryTree.IsToldApart.fileSystem` — **a tree whose locations are told apart** is a project whose
  paths are, below whatever directory.
-/

set_option autoImplicit false

namespace GlobPreset

open GlobPreset.Path

/-! ### Names that are shown -/

namespace FileSystem

variable {fs : FileSystem} {root : Text} {policy : CasePolicy} {ignore : IgnoreRules}

/-- The name leads somewhere from the directory, or is listed there. -/
def Shows (fs : FileSystem) (root : Text) (names : List Text) (name : Text) : Prop :=
  (fs.kind? (inside root (names ++ [name]))).isSome ∨
    ∃ entries, fs.list (inside root names) = .ok entries ∧ ∃ e ∈ entries, e.name = name

/-- Every name of the path is shown where it stands. -/
def Leads (fs : FileSystem) (root : Text) (names : List Text) : Prop :=
  ∀ front name, front ++ [name] <+: names → fs.Shows root front name

/-- What leads to an entry leads to each directory on the way. -/
lemma Leads.left {front names : List Text} (h : fs.Leads root names) (hfront : front <+: names) :
    fs.Leads root front :=
  fun before name hbefore => h before name (hbefore.trans hfront)

/-- A way leads on to what the directory at its end shows. -/
lemma Leads.concat {names : List Text} {name : Text} (h : fs.Leads root names)
    (hname : fs.Shows root names name) : fs.Leads root (names ++ [name]) := by
  intro front last hfront
  rcases List.prefix_concat_iff.1 hfront with heq | hfront
  · obtain ⟨rfl, hlast⟩ := List.append_inj' heq rfl
    rwa [List.singleton_inj.1 hlast]
  · exact h front last hfront

/-- What leads somewhere is shown name by name. -/
lemma IsProject.leads (hp : fs.IsProject root) {names : List Text} (hn : AreNames names)
    (hsome : (fs.kind? (inside root names)).isSome) : fs.Leads root names := by
  rintro front name ⟨rest, rfl⟩
  by_cases hrest : rest = []
  · subst hrest
    rw [List.append_nil] at hsome
    exact .inl hsome
  · refine .inl ?_
    rw [hp.directory_above hrest hn hsome]
    rfl

/-- What a walk reaches is shown name by name. -/
lemma Leads.reaches {names rel : List Text} (h : fs.Leads root names)
    (hreach : fs.Reaches ignore root names rel) : fs.Leads root (names ++ rel) := by
  induction hreach with
  | @file names entries e hlist he _ _ => exact h.concat (.inr ⟨entries, hlist, e, he, rfl⟩)
  | @inner names entries e rel hlist he _ _ _ ih =>
    have hnext := ih (h.concat (.inr ⟨entries, hlist, e, he, rfl⟩))
    rwa [List.append_assoc] at hnext

/-! ### Paths that are told apart -/

/-- A case policy tells the paths of a project apart: no two names that a directory shows have the
same key, folding keeps their lengths, and a directory in place as far as the policy tells is in
place. -/
structure IsToldApart (fs : FileSystem) (root : Text) (policy : CasePolicy) : Prop where
  /-- No two names of a directory are compared alike. -/
  name_eq : ∀ {names : List Text} {x y : Text}, AreNames (names ++ [x]) → AreNames (names ++ [y]) →
    fs.Shows root names x → fs.Shows root names y → policy.key x = policy.key y → x = y
  /-- Folding keeps the length of a name. -/
  keepsLength : ∀ {names : List Text} {x : Text}, AreNames (names ++ [x]) →
    fs.Shows root names x → policy.KeepsLength x
  /-- What is in place as far as the policy tells is in place. -/
  inPlace : ∀ {names : List Text} {entries : List Entry}, AreNames names →
    fs.list (inside root names) = .ok entries → InPlaceBy policy fs root names →
    fs.InPlace root names

/-- Where letter case counts, all paths are told apart. -/
lemma isToldApart_sensitive : fs.IsToldApart root .sensitive where
  name_eq _ _ _ _ heq := heq
  keepsLength _ _ := trivial
  inPlace _ _ hplace := inPlaceBy_sensitive.1 hplace

namespace IsToldApart

variable (h : fs.IsToldApart root policy)
include h

/-- **Paths that are compared alike are the same**, if both lead anywhere. -/
theorem eq_of_keys_eq {l m : List Text} (hl : AreNames l) (hm : AreNames m)
    (hleads : fs.Leads root l) (hleads' : fs.Leads root m)
    (hkeys : l.map policy.key = m.map policy.key) : l = m := by
  induction l using List.reverseRecOn generalizing m with
  | nil => exact (List.map_eq_nil_iff.1 hkeys.symm).symm
  | append_singleton front name ih =>
    rw [List.map_append, List.map_singleton] at hkeys
    obtain ⟨front', last, rfl, hfront, hlast⟩ := List.map_eq_append_iff.1 hkeys.symm
    obtain ⟨name', rfl, hname⟩ := List.map_eq_singleton_iff.1 hlast
    obtain rfl := ih hl.left hm.left (hleads.left (List.prefix_append _ _))
      (hleads'.left (List.prefix_append _ _)) hfront.symm
    rw [h.name_eq hl hm (hleads front name (List.prefix_refl _))
      (hleads' front name' (List.prefix_refl _)) hname.symm]

/-- Texts of paths that are compared alike are the same, if both lead anywhere. -/
lemma eq_of_key_eq {f g : Text} (hf : IsPlain f) (hg : IsPlain g)
    (hleads : fs.Leads root (segments f)) (hleads' : fs.Leads root (segments g))
    (hkey : policy.key f = policy.key g) : f = g := by
  have hkeys := congrArg segments hkey
  rw [segments_key, segments_key] at hkeys
  rw [← ofSegments_segments f, h.eq_of_keys_eq hf hg hleads hleads' hkeys, ofSegments_segments]

/-- Folding keeps the length of what leads anywhere. -/
lemma keepsLength_ofSegments {names : List Text} (hn : AreNames names)
    (hleads : fs.Leads root names) : policy.KeepsLength (ofSegments names) := by
  refine CasePolicy.KeepsLength.ofSegments fun s hs => ?_
  obtain ⟨front, rest, rfl⟩ := List.append_of_mem hs
  rw [List.append_cons] at hn hleads
  exact h.keepsLength hn.left (hleads front s (List.prefix_append _ _))

/-- **A directory is discerned** from whatever else leads a path, if both lead anywhere. -/
lemma discerns {d path : Text} (hd : IsPlain d) (hpath : IsPlain path)
    (hleads : fs.Leads root (segments d)) (hleads' : fs.Leads root (segments path)) :
    policy.Discerns d path where
  keepsLength := by
    have hkeeps := h.keepsLength_ofSegments hpath hleads'
    rwa [ofSegments_segments] at hkeeps
  eq_of_key_eq hsplit habove := by
    rw [IsPlain, hsplit] at hpath
    exact h.eq_of_keys_eq hpath.left hd (hleads'.left (hsplit ▸ List.prefix_append _ _)) hleads
      habove

/-- **What a clear walk reaches is ordinary**, if the files in directories in place are. -/
lemma isOrdinary (hp : fs.IsProject root) (hord : fs.HasOrdinaryFiles root)
    {names rel : List Text} (hreach : fs.Reaches ignore root names rel) (hn : AreNames names) :
    ∀ {k : Nat}, fs.Clear policy ignore root k names → IsOrdinary (ofSegments (names ++ rel)) := by
  induction hreach with
  | file hlist he hkind _ =>
    intro k hclear
    exact hord hn (h.inPlace hn hlist hclear.inPlace) hlist he hkind
  | inner hlist he hkind hkept _ ih =>
    intro k hclear
    have hname := areNames_singleton (hp.isName hn hlist he)
    have hinner := ih (hn.append hname) (hclear.child hlist he hkind hkept)
    rwa [List.append_assoc] at hinner

end IsToldApart

end FileSystem

/-! ### Trees in memory -/

namespace MemoryTree

open Location

variable {t : MemoryTree} {policy : CasePolicy} {l : Location}

/-- A case policy tells the locations of a tree apart, and folding keeps their lengths. -/
structure IsToldApart (t : MemoryTree) (policy : CasePolicy) : Prop where
  /-- No two locations are compared alike. -/
  segments_eq : ∀ l ∈ t.locations, ∀ m ∈ t.locations,
    l.segments.map policy.key = m.segments.map policy.key → l.segments = m.segments
  /-- Folding keeps the lengths of names. -/
  keepsLength : ∀ l ∈ t.locations, ∀ s ∈ l.segments, policy.KeepsLength s

instance (t : MemoryTree) (policy : CasePolicy) : Decidable (t.IsToldApart policy) :=
  decidable_of_iff
    ((∀ l ∈ t.locations, ∀ m ∈ t.locations,
        l.segments.map policy.key = m.segments.map policy.key → l.segments = m.segments) ∧
      ∀ l ∈ t.locations, ∀ s ∈ l.segments, policy.KeepsLength s)
    ⟨fun h => ⟨h.1, h.2⟩, fun h => ⟨h.segments_eq, h.keepsLength⟩⟩

/-- A name that is shown is registered where its directory really is. -/
lemma mem_locations_of_shows (h : t.WellFormed) (hl : l.IsProper) {names : List Text} {name : Text}
    (hn : AreNames (names ++ [name])) (hshows : t.fileSystem.Shows l.toText names name) :
    Location.below (t.realNames (inside l.toText names) ++ [name]) ∈ t.locations := by
  have hdir := hl.further hn.left
  have hname : IsName name := hn.right name (List.mem_singleton_self name)
  rw [hl.inside hn.left]
  rcases hshows with hsome | ⟨entries, hlist, e, he, rfl⟩
  · obtain ⟨k, hk⟩ := Option.isSome_iff_exists.1 hsome
    rw [hl.inside hn, ← List.append_assoc] at hk
    obtain ⟨real, left, harrive, -, -, hmem, -⟩ := arrive?_of_kind? h hdir hname hk
    rwa [realNames_of_arrive? hdir harrive]
  · rw [hl.inside hn.left] at hlist
    obtain ⟨real, -, rfl, -, rfl⟩ := list_eq_ok h hdir hlist
    obtain ⟨name, hmem, rfl⟩ := List.mem_map.1 he
    exact mem_childNames.1 hmem

/-- What leads somewhere is resolved. -/
lemma exists_arrive? (h : t.WellFormed) (hl : l.IsProper) (hsome : (t.kind? l.toText).isSome) :
    ∃ left, t.arrive? maxLinks l.segments = some (t.realNames l.toText, left) := by
  rw [kind?_toText h hl] at hsome
  cases harrive : t.arrive? maxLinks l.segments with
  | none =>
    rw [harrive] at hsome
    cases hsome
  | some r => exact ⟨r.2, by rw [realNames_of_arrive? hl harrive]⟩

/-- A directory that is registered where another one really is, is reached from there. -/
lemma arrive?_concat (h : t.WellFormed) {names real : List Text} {left : Nat} {name : Text}
    (hn : AreNames names) (hname : IsName name)
    (harrive : t.arrive? maxLinks names = some (real, left))
    (hmem : Location.below (real ++ [name]) ∈ t.directories) :
    t.arrive? maxLinks (names ++ [name]) = some (real ++ [name], left) := by
  have hnone : lookup? (Location.below (real ++ [name])) t.links = none := by
    rw [← Option.not_isSome_iff_eq_none, lookup?_isSome]
    exact (h.not_mem_of_directory hmem).2.1
  have hpass : t.pass [] (real ++ [name]) = .arrived (real ++ [name]) := by
    rw [pass_append, (arrive?_eq_some hn harrive).2.1]
    simp [pass, hname.ne_dots, hnone]
  rw [arrive?_append [name] hn, harrive, Option.bind_some, arrive?_of_pass hpass]

namespace IsToldApart

variable (ht : t.IsToldApart policy)
include ht

/-- What is compared alike with something that contains a directory is a directory. -/
lemma mem_directories (h : t.WellFormed) {real front : List Text} (rest : List Text)
    (hreal : Location.below real ∈ t.directories)
    (hkeys : real.map policy.key = (front ++ rest).map policy.key)
    (hfront : Location.below front ∈ t.locations) : Location.below front ∈ t.directories := by
  rw [List.map_append] at hkeys
  obtain ⟨above, below, rfl, hkey, -⟩ := List.map_eq_append_iff.1 hkeys
  have habove : Location.below above ∈ t.directories := by
    by_cases hbelow : below = []
    · rwa [hbelow, List.append_nil] at hreal
    · exact h.directory_of_below hbelow (mem_locations.2 (.inr (.inl hreal)))
  have hsame : above = front :=
    ht.segments_eq _ (mem_locations.2 (.inr (.inl habove))) _ hfront hkey
  rwa [hsame] at habove

/-- **A directory whose real path is compared alike** with that of the project, continued by its
names, really has that path.

**Proof sketch.** Name by name: what the project leads to next is registered there and compared
alike with something that contains the real directory. So it is a directory, and no link. -/
lemma realNames_eq (h : t.WellFormed) (hl : l.IsProper) {names : List Text} (hn : AreNames names)
    {entries : List Entry} (hlist : t.list (inside l.toText names) = .ok entries)
    (hkeys : (t.realNames (inside l.toText names)).map policy.key =
      (t.realNames l.toText ++ names).map policy.key) :
    t.realNames (inside l.toText names) = t.realNames l.toText ++ names := by
  have hproj := isProject h hl
  rw [hl.inside hn] at hlist hkeys ⊢
  have hreal := mem_directories_of_list (hl.further hn) hlist
  have hsome : (t.fileSystem.kind? (inside l.toText names)).isSome := by
    rw [hl.inside hn]
    exact congrArg Option.isSome (h.kindAt?_of_directory hreal)
  have hreach : ∀ front, front <+: names → ∃ left,
      t.arrive? maxLinks (l.segments ++ front) = some (t.realNames l.toText ++ front, left) := by
    intro front
    induction front using List.reverseRecOn with
    | nil =>
      intro _
      have hroot : (t.kind? l.toText).isSome := by
        by_cases hne : names = []
        · subst hne
          exact hsome
        · have hdirectory : t.fileSystem.kind? (inside l.toText []) = some .directory := by
            refine hproj.directory_above hne ?_ ?_ <;> rwa [List.nil_append]
          change (t.fileSystem.kind? (inside l.toText [])).isSome
          rw [hdirectory]
          rfl
      simpa using exists_arrive? h hl hroot
    | append_singleton front name ih =>
      intro hfront
      obtain ⟨left, harrive⟩ := ih ((List.prefix_append _ _).trans hfront)
      obtain ⟨rest, rfl⟩ := hfront
      have hbefore := hl.further hn.left.left
      have hmem := mem_locations_of_shows h hl hn.left
        (hproj.leads hn hsome front name (List.prefix_append _ _))
      rw [hl.inside hn.left.left, realNames_of_arrive? hbefore harrive] at hmem
      have hdirectory : Location.below (t.realNames l.toText ++ front ++ [name]) ∈ t.directories :=
        ht.mem_directories h rest hreal (by rw [hkeys]; simp) hmem
      refine ⟨left, ?_⟩
      rw [← List.append_assoc, ← List.append_assoc]
      exact arrive?_concat h hbefore.names (hn.left.right name (List.mem_singleton_self name))
        harrive hdirectory
  obtain ⟨left, harrive⟩ := hreach names (List.prefix_refl names)
  exact realNames_of_arrive? (hl.further hn) harrive

/-- **A tree whose locations are told apart** is a project whose paths are. -/
theorem fileSystem (h : t.WellFormed) (hl : l.IsProper) :
    t.fileSystem.IsToldApart l.toText policy where
  name_eq hx hy hshows hshows' heq := by
    have hsame := ht.segments_eq _ (mem_locations_of_shows h hl hx hshows) _
      (mem_locations_of_shows h hl hy hshows') (by simp [Location.below, heq])
    simpa [Location.below] using hsame
  keepsLength hx hshows :=
    ht.keepsLength _ (mem_locations_of_shows h hl hx hshows) _ (by simp [Location.below])
  inPlace := by
    intro names entries hn hlist hplace
    by_cases hne : names = []
    · exact .inl hne
    right
    have hroot := areNames_realNames h.toRooted l.toText
    have hreal := areNames_realNames h.toRooted (inside l.toText names)
    have hkeys := hplace.resolve_left hne
    rw [trimmedRoot_continued hroot hne] at hkeys ⊢
    -- the names of both paths are compared alike
    have hnames := congrArg Path.names hkeys
    rw [names_key, names_key, (isProper_below (hroot.append hn)).names_toText] at hnames
    change (Path.names (Location.below _).toText).map policy.key = _ at hnames
    rw [(isProper_below hreal).names_toText] at hnames
    exact congrArg (fun real => (Location.below real).toText) (ht.realNames_eq h hl hn hlist hnames)

end IsToldApart

end MemoryTree

end GlobPreset
