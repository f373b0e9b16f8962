import GlobPreset.Proofs.Collapse.Characters

/-!
# The files of a scan are distinct

A scan has each of its files once. For that, nothing is asked of the project or of the directory,
which may be any texts, but only that listings tell their entries apart: a file of a scan is the
directory continued by listed names, and different names lead to different files.

## Main definitions

* `FileSystem.ListsApart` — every listing has different names, each of which is one segment.

## Main results

* `Scanner.nodup_files_of_visit` — **the files of a scan are distinct**.
* `Scanner.directGroup_spec` — so are those of each extension directly inside the directory.
* `MemoryTree.listsApart_build` — every tree in memory lists its entries apart.
-/

set_option autoImplicit false

namespace GlobPreset

open GlobPreset.Path Text

/-! ### Segments -/

/-- A text that may stand between two slashes. -/
def Path.IsSegment (s : Text) : Prop := s ≠ [] ∧ .of '/' ∉ s

/-- A path that is continued by segments, from nothing. -/
lemma Path.segments_foldl_join_nil {s : Text} {l : List Text} (hs : IsSegment s)
    (hl : ∀ s ∈ l, IsSegment s) : segments ((s :: l).foldl join []) = s :: l := by
  have hself : segments s = [s] := splitOn_of_not_mem hs.2
  show segments (l.foldl join s) = s :: l
  rw [segments_foldl_join (fun t ht => (hl t ht).2) hs.1, hself, List.singleton_append]

/-- **Different segments lead to different paths.** -/
lemma Path.head_eq_of_foldl_join {directory s s' : Text} {l l' : List Text} (hs : IsSegment s)
    (hl : ∀ s ∈ l, IsSegment s) (hs' : IsSegment s') (hl' : ∀ s ∈ l', IsSegment s)
    (h : (s :: l).foldl join directory = (s' :: l').foldl join directory) : s = s' := by
  by_cases hdir : directory = []
  · subst hdir
    have hsegs := congrArg segments h
    rw [segments_foldl_join_nil hs hl, segments_foldl_join_nil hs' hl'] at hsegs
    exact (List.cons.inj hsegs).1
  · have hslash : ∀ t ∈ s :: l, .of '/' ∉ t :=
      List.forall_mem_cons.2 ⟨hs.2, fun t ht => (hl t ht).2⟩
    have hslash' : ∀ t ∈ s' :: l', .of '/' ∉ t :=
      List.forall_mem_cons.2 ⟨hs'.2, fun t ht => (hl' t ht).2⟩
    have hsegs := congrArg segments h
    rw [segments_foldl_join hslash hdir, segments_foldl_join hslash' hdir] at hsegs
    exact (List.cons.inj (List.append_cancel_left hsegs)).1

/-! ### Listings -/

/-- Every listing has different names, each of which is one segment. -/
structure FileSystem.ListsApart (fs : FileSystem) : Prop where
  /-- Every name is one segment. -/
  segments : fs.Lists IsSegment
  /-- No name is listed twice. -/
  nodup : ∀ path entries, fs.list path = .ok entries → (entries.map Entry.name).Nodup

/-! ### Scans -/

namespace Scanner

variable {s : Scanner}

/-- The files that an entry adds are its directory, continued by its name and further segments. -/
lemma exists_segments_of_contribution (hs : s.fs.ListsApart) {fuel : Nat} {directory : Text}
    {e : Entry} {f : Text} (hf : f ∈ s.contribution (s.visit fuel) directory e) :
    ∃ l : List Text, (∀ s ∈ l, IsSegment s) ∧ f = (e.name :: l).foldl join directory := by
  unfold contribution at hf
  split at hf
  · exact ⟨[], by simp, List.mem_singleton.1 hf⟩
  · cases hsub : (s.visit fuel (join directory e.name)).scan with
    | none => simp [hsub] at hf
    | some sub =>
      simp only [hsub, Option.map_some, Option.getD_some] at hf
      obtain ⟨l, hl, rfl⟩ := exists_names_of_visit hs.segments hsub f hf
      exact ⟨l, hl, rfl⟩
  · cases hf

/-- **The files of a scan are distinct.**

**Proof sketch.** Induction on the fuel. The files that one entry adds are distinct, as it is a file
or has a scan, and files that two entries add differ where the names of the entries do. -/
theorem nodup_files_of_visit (hs : s.fs.ListsApart) :
    ∀ {fuel : Nat} {directory : Text} {scan : DirectoryScan},
      (s.visit fuel directory).scan = some scan → scan.files.Nodup := by
  intro fuel
  induction fuel with
  | zero =>
    intro directory scan h
    cases h
  | succ fuel ih =>
    intro directory scan h
    obtain ⟨-, -, entries, t, hlist, ht, rfl⟩ := visit_spec h
    obtain ⟨hfiles, -, -⟩ := through_tally ht
    show (Text.sort t.files).Nodup
    rw [nodup_sort, hfiles, List.nodup_flatMap]
    constructor
    · intro e _
      unfold contribution
      split
      · exact List.nodup_singleton _
      · cases hsub : (s.visit fuel (join directory e.name)).scan with
        | none => simp
        | some sub => exact ih hsub
      · exact List.nodup_nil
    · have hnames : ((sortBy FileSystem.entryOrder entries).map Entry.name).Nodup :=
        ((sortBy_perm _ _).map Entry.name).nodup_iff.2 (hs.nodup _ _ hlist)
      have hgood : ∀ e ∈ sortBy FileSystem.entryOrder entries, IsSegment e.name :=
        fun e he => hs.segments _ _ hlist e (mem_sortBy.1 he)
      refine (List.pairwise_map.1 hnames).imp_of_mem fun {e e'} he he' hne f hf hf' => ?_
      obtain ⟨l, hl, rfl⟩ := exists_segments_of_contribution hs hf
      obtain ⟨l', hl', heq⟩ := exists_segments_of_contribution hs hf'
      exact hne (head_eq_of_foldl_join (hgood e he) hl (hgood e' he') hl' heq)

/-- What is looked up among values that were computed is computed from what is looked up. -/
lemma lookup?_map {α β γ : Type} [DecidableEq α] (f : β → γ) (k : α) :
    ∀ pairs : List (α × β),
      lookup? k (pairs.map fun p => (p.1, f p.2)) = (lookup? k pairs).map f
  | [] => rfl
  | (l, b) :: rest => by
    by_cases h : l = k
    · simp [lookup?, h]
    · simpa [lookup?, h] using lookup?_map f k rest

/-- **The files of one extension directly inside a directory** are distinct, and they are selected
if the scan says so. -/
lemma directGroup_spec (hs : s.fs.ListsApart) {fuel : Nat} {directory : Text}
    {scan : DirectoryScan} (h : (s.visit fuel directory).scan = some scan) {extension : Text}
    {group : List Text} (hgroup : lookup? extension scan.direct = some group) :
    group.Nodup ∧ (Coverage.coversExtension scan extension = true →
      ∀ f ∈ group, s.isSelected f = true) := by
  cases fuel with
  | zero => cases h
  | succ fuel =>
    have hfiles := nodup_files_of_visit hs h
    obtain ⟨-, -, entries, t, -, ht, rfl⟩ := visit_spec h
    obtain ⟨htally, hdirect, -⟩ := through_tally ht
    constructor
    · have hvalues : group = valuesOf extension t.direct := by
        have hlookup : lookup? extension (groupPairs t.direct) = some group := hgroup
        rw [lookup?_groupPairs] at hlookup
        split at hlookup
        · cases hlookup
        · exact (Option.some.inj hlookup).symm
      have hsub : (valuesOf extension t.direct).Sublist t.files := by
        rw [htally, hdirect]
        exact (List.filter_sublist.map _).trans (directPairs_sublist _ _ _)
      rw [hvalues]
      exact (nodup_sort.1 hfiles).sublist hsub
    · intro hcovers
      have hall : (lookup? extension ((groupPairs t.direct).map
          fun g => (g.1, g.2.all s.isSelected))).getD false = true := hcovers
      have hlookup : lookup? extension (groupPairs t.direct) = some group := hgroup
      rw [lookup?_map (fun fs : List Text => fs.all s.isSelected), hlookup] at hall
      exact List.all_eq_true.1 hall

end Scanner

/-! ### Trees in memory -/

/-- Going one segment further from segments leads to segments. -/
lemma Location.isSegment_walkSegment {anchor : Anchor} {done : List Text}
    (hd : ∀ s ∈ done, IsSegment s) {segment : Text} (hs : .of '/' ∉ segment) :
    ∀ s ∈ walkSegment anchor done segment, IsSegment s := by
  unfold walkSegment
  split
  · exact hd
  · rename_i hplain
    have hsegment : IsSegment segment := ⟨fun h => hplain (.inl h), hs⟩
    split
    · cases done with
      | nil =>
        show ∀ s ∈ (if anchor = .relative then [segment] else []), IsSegment s
        split
        · exact List.forall_mem_singleton.2 hsegment
        · exact fun s hs => absurd hs List.not_mem_nil
      | cons last rest =>
        dsimp only
        split
        · exact List.forall_mem_cons.2 ⟨hsegment, hd⟩
        · exact fun s hs => hd s (List.mem_cons_of_mem _ hs)
    · exact List.forall_mem_cons.2 ⟨hsegment, hd⟩

/-- Reading any path gives segments. -/
lemma Location.isSegment_ofText (path : Text) : ∀ s ∈ (ofText path).segments, IsSegment s := by
  have hnormal : ∀ anchor, ∀ s ∈ normalSegments anchor (Path.segments path), IsSegment s := by
    intro anchor s hs
    have hfold : ∀ (parts done : List Text), (∀ p ∈ parts, .of '/' ∉ p) →
        (∀ s ∈ done, IsSegment s) → ∀ s ∈ parts.foldl (walkSegment anchor) done, IsSegment s := by
      intro parts
      induction parts with
      | nil => exact fun done _ hd => hd
      | cons p parts ih =>
        intro done hp hd
        exact ih _ (fun q hq => hp q (List.mem_cons_of_mem p hq))
          (isSegment_walkSegment hd (hp p List.mem_cons_self))
    exact hfold _ [] (fun p hp => not_mem_of_mem_splitOn hp) (by simp) s (List.mem_reverse.1 hs)
  unfold ofText
  dsimp only
  split
  · exact List.forall_mem_singleton.2 ⟨by decide, by decide⟩
  · exact hnormal _

namespace MemoryTree

variable {t : MemoryTree}

/-- The path of a registration. -/
def Addition.path : Addition → Text
  | file path _ => path
  | directory path => path
  | link path _ => path
  | special path => path
  | unreadable path => path

/-- A registration adds the location of its path, and locations that contain it. -/
lemma mem_locations_register {a : Addition} {m : Location} (hm : m ∈ (t.register a).locations) :
    m ∈ lineage (t.locate a.path) ∨ m ∈ t.locations := by
  have hparent : ∀ {l d : Location}, d ∈ lineage l.parent → d ∈ lineage l := by
    intro l d hd
    obtain ⟨n, hn, rfl⟩ := mem_lineage.1 hd
    refine mem_lineage.2 ⟨min n (l.segments.length - 1), by omega, ?_⟩
    simp [Location.parent, List.dropLast_eq_take, List.take_take]
  have hself := self_mem_lineage (t.locate a.path)
  rw [mem_locations] at hm ⊢
  cases a with
  | file path content =>
    rcases hm with hm | hm | hm
    · rcases mem_keys_setValue.1 hm with rfl | hm
      · exact .inl hself
      · exact .inr (.inl hm)
    · rcases mem_directories_makeDirectories.1 hm with hm | hm
      · exact .inl (hparent hm)
      · exact .inr (.inr (.inl hm))
    · exact .inr (.inr (.inr hm))
  | directory path =>
    rcases hm with hm | hm | hm
    · exact .inr (.inl hm)
    · rcases mem_directories_makeDirectories.1 hm with hm | hm
      · exact .inl hm
      · exact .inr (.inr (.inl hm))
    · exact .inr (.inr (.inr hm))
  | link path target =>
    rcases hm with hm | hm | hm | hm
    · exact .inr (.inl hm)
    · rcases mem_directories_makeDirectories.1 hm with hm | hm
      · exact .inl (hparent hm)
      · exact .inr (.inr (.inl hm))
    · rcases mem_keys_setValue.1 hm with rfl | hm
      · exact .inl hself
      · exact .inr (.inr (.inr (.inl hm)))
    · exact .inr (.inr (.inr (.inr hm)))
  | special path =>
    rcases hm with hm | hm | hm | hm
    · exact .inr (.inl hm)
    · rcases mem_directories_makeDirectories.1 hm with hm | hm
      · exact .inl (hparent hm)
      · exact .inr (.inr (.inl hm))
    · exact .inr (.inr (.inr (.inl hm)))
    · rcases mem_addMember.1 hm with rfl | hm
      · exact .inl hself
      · exact .inr (.inr (.inr (.inr hm)))
  | unreadable path =>
    rcases hm with hm | hm | hm
    · exact .inr (.inl hm)
    · rcases mem_directories_makeDirectories.1 hm with hm | hm
      · exact .inl hm
      · exact .inr (.inr (.inl hm))
    · exact .inr (.inr (.inr hm))

/-- The locations of a tree that is built from registrations have segments. -/
lemma isSegment_build (root : Text) (additions : List Addition) :
    ∀ l ∈ (build root additions).locations, ∀ s ∈ l.segments, IsSegment s := by
  have hlineage : ∀ {path : Text} {l : Location}, l ∈ lineage (.ofText path) →
      ∀ s ∈ l.segments, IsSegment s := by
    intro path l hl s hs
    obtain ⟨n, -, rfl⟩ := mem_lineage.1 hl
    exact Location.isSegment_ofText path s (List.take_subset n _ hs)
  have hlocate : ∀ {t : MemoryTree} {path : Text} {l : Location}, l ∈ lineage (t.locate path) →
      ∀ s ∈ l.segments, IsSegment s := by
    intro t path l hl
    unfold locate at hl
    split at hl
    · exact hlineage hl
    · exact hlineage hl
  unfold build
  induction additions using List.reverseRecOn with
  | nil =>
    intro l hl
    simp only [List.foldl_nil, empty, mem_locations, mem_directories_makeDirectories] at hl
    rcases hl with hl | (hl | hl) | hl | hl
    · exact absurd hl (by simp [makeDirectories])
    · exact hlineage hl
    · rw [List.mem_singleton.1 hl]
      exact fun s hs => absurd hs List.not_mem_nil
    · exact absurd hl (by simp [makeDirectories])
    · exact absurd hl (by simp [makeDirectories])
  | append_singleton additions a ih =>
    intro l hl
    rw [List.foldl_append] at hl
    rcases mem_locations_register hl with hl | hl
    · exact hlocate hl
    · exact ih l hl

/-- A tree whose locations have segments lists its entries apart. -/
lemma listsApart_of_segments (h : ∀ l ∈ t.locations, ∀ s ∈ l.segments, IsSegment s) :
    t.fileSystem.ListsApart where
  segments := lists h
  nodup path entries hlist := by
    simp only [fileSystem, list] at hlist
    split at hlist
    · cases hlist
    split at hlist
    · cases hlist
      have hnames : ∀ (names : List Text) (asked directory : Location),
          (names.map (t.entry asked directory)).map Entry.name = names := by
        intro names asked directory
        rw [List.map_map]
        exact List.map_id _
      rw [hnames]
      exact nodup_sort.2 (nodup_dedupe _)
    · split at hlist <;> cases hlist

/-- **Every tree in memory lists its entries apart**, whatever its root. -/
theorem listsApart_build (root : Text) (additions : List Addition) :
    (build root additions).fileSystem.ListsApart :=
  listsApart_of_segments (isSegment_build root additions)

end MemoryTree

end GlobPreset
