import GlobPreset.Proofs.FileSystem.Disk
import GlobPreset.Proofs.FileSystem.Memory
import GlobPreset.Proofs.FileSystem.Reach

/-!
# Names that are listed

Whatever a file system answers, a walk adds nothing to a path but names of entries that were
listed. So a property that every listed name has is one of every name that a walk went through,
and what a walk finds is its base, continued by such names.

## Main definitions

* `FileSystem.Lists` — every entry of every listing has a name of some kind.

## Main results

* `Walk.exists_names_of_mem_files` — what a walk finds is its base, continued by listed names.
* `Walk.exists_listed_of_mem_files` — a path of names that a walk finds leads to a file, or is
  listed as one.
* `Path.segments_foldl_join` — the segments of a path that is continued by names.
* `MemoryTree.lists` — a tree in memory lists segments of its locations, whatever it is asked for.

## Design

Nothing is asked of the file system: the names may hold slashes, and the walk may run in circles
until its fuel is spent. The results about projects ask more and say more.
-/

set_option autoImplicit false

namespace GlobPreset

/-! ### Continuing a path -/

namespace Path

/-- The characters of a path that is continued by names. -/
lemma mem_foldl_join {c : CodePoint} {names : List Text} {path : Text}
    (h : c ∈ names.foldl join path) : c = .of '/' ∨ c ∈ path ∨ ∃ s ∈ names, c ∈ s := by
  induction names generalizing path with
  | nil => exact .inr (.inl h)
  | cons s rest ih =>
    rcases ih h with rfl | hc | ⟨t, ht, hc⟩
    · exact .inl rfl
    · unfold join at hc
      split at hc
      · exact .inr (.inr ⟨s, List.mem_cons_self, hc⟩)
      · simp only [List.mem_append, List.mem_cons] at hc
        rcases hc with hc | rfl | hc
        · exact .inr (.inl hc)
        · exact .inl rfl
        · exact .inr (.inr ⟨s, List.mem_cons_self, hc⟩)
    · exact .inr (.inr ⟨t, List.mem_cons_of_mem s ht, hc⟩)

/-- **The segments of a path that is continued by names.** -/
lemma segments_foldl_join {names : List Text} (hn : ∀ s ∈ names, .of '/' ∉ s) {path : Text}
    (hpath : path ≠ []) : segments (names.foldl join path) = segments path ++ names := by
  induction names generalizing path with
  | nil => simp
  | cons s rest ih =>
    have hjoin : join path s = path ++ .of '/' :: s := by simp [join, hpath]
    have hself : segments s = [s] := Text.splitOn_of_not_mem (hn s List.mem_cons_self)
    rw [List.foldl_cons, ih (fun t ht => hn t (List.mem_cons_of_mem s ht)) (by simp [hjoin]),
      hjoin, segments_append_slash, hself, List.append_assoc, List.singleton_append]

/-- A path that is continued starts as it did. -/
lemma head?_foldl_join {names : List Text} {path : Text} (hpath : path ≠ []) :
    (names.foldl join path).head? = path.head? := by
  induction names generalizing path with
  | nil => rfl
  | cons s rest ih =>
    obtain ⟨c, t, rfl⟩ := List.exists_cons_of_ne_nil hpath
    exact ih (by simp [join])

end Path

/-! ### Walks -/

namespace FileSystem

/-- Every entry of every listing has a name of this kind. -/
def Lists (fs : FileSystem) (IsGood : Text → Prop) : Prop :=
  ∀ path entries, fs.list path = .ok entries → ∀ e ∈ entries, IsGood e.name

/-- A listing in order has the entries of the listing. -/
lemma sortedList_eq_ok {fs : FileSystem} {path : Text} {sorted : List Entry}
    (h : fs.sortedList path = .ok sorted) :
    ∃ entries, fs.list path = .ok entries ∧ ∀ e, e ∈ sorted ↔ e ∈ entries := by
  cases hlist : fs.list path with
  | error e => simp [sortedList, hlist, Except.map] at h
  | ok entries =>
    simp only [sortedList, hlist, Except.map, Except.ok.injEq] at h
    subst h
    exact ⟨entries, rfl, fun _ => mem_sortBy⟩

/-- What holds for the names that are listed holds for them when they are sorted. -/
lemma Lists.sorted {fs : FileSystem} {IsGood : Text → Prop} (h : fs.Lists IsGood) {path : Text}
    {sorted : List Entry} (hsorted : fs.sortedList path = .ok sorted) :
    ∀ e ∈ sorted, IsGood e.name := by
  obtain ⟨entries, hlist, hmem⟩ := sortedList_eq_ok hsorted
  exact fun e he => h path entries hlist e ((hmem e).1 he)

end FileSystem

namespace Walk

open GlobPreset.Path

variable {fs : FileSystem} {ignore : IgnoreRules} {root : Text} {IsGood : Text → Prop}

/-- What a walk through a directory finds is the directory, continued by listed names. -/
lemma exists_names_of_mem_below (h : fs.Lists IsGood) {fuel : Nat} {above : List Text}
    {path location f : Text}
    (hf : f ∈ (below fs ignore fuel above path location).filterMap Event.file?) :
    ∃ names, names ≠ [] ∧ (∀ s ∈ names, IsGood s) ∧ f = names.foldl join path := by
  induction fuel generalizing above path location with
  | zero => simp [below] at hf
  | succ fuel ih =>
    simp only [below] at hf
    split at hf
    · simp [Event.file?] at hf
    split at hf
    · simp [Event.file?] at hf
    rename_i entries hsorted
    obtain ⟨event, hevent, hfile⟩ := List.mem_filterMap.1 hf
    obtain ⟨e, he, hevent⟩ := List.mem_flatMap.1 hevent
    have hname : IsGood e.name := h.sorted hsorted e he
    cases hkind : e.kind with
    | directory =>
      simp only [hkind] at hevent
      split at hevent
      · simp at hevent
      obtain ⟨names, -, hgood, rfl⟩ := ih (List.mem_filterMap.2 ⟨event, hevent, hfile⟩)
      exact ⟨e.name :: names, List.cons_ne_nil _ _, List.forall_mem_cons.2 ⟨hname, hgood⟩, rfl⟩
    | file =>
      simp only [hkind] at hevent
      split at hevent
      · simp at hevent
      rw [List.mem_singleton.1 hevent, Event.file?, Option.some.injEq] at hfile
      exact ⟨[e.name], List.cons_ne_nil _ _, List.forall_mem_singleton.2 hname, hfile.symm⟩
    | other => simp [hkind] at hevent

/-- **What a walk finds is its base, continued by listed names.** -/
theorem exists_names_of_mem_files (h : fs.Lists IsGood) {base f : Text}
    (hf : f ∈ files fs ignore root base) :
    ∃ names, (∀ s ∈ names, IsGood s) ∧ f = names.foldl join base ∧
      (names = [] → base ≠ []) := by
  simp only [files, start] at hf
  split at hf
  · rename_i hfile
    have hbase : f = base := by simpa [Event.file?] using hf
    refine ⟨[], by simp, hbase, fun _ => ?_⟩
    rintro rfl
    simp at hfile
  split at hf
  · obtain ⟨names, hne, hgood, rfl⟩ := exists_names_of_mem_below h hf
    exact ⟨names, hgood, rfl, fun hnil => absurd hnil hne⟩
  · simp at hf

/-- A base from which a path of names is found is itself one. -/
lemma exists_names_of_base (h : fs.Lists IsName) {base f : Text} (hplain : IsPlain f)
    (hf : f ∈ files fs ignore root base) : ∃ names, AreNames names ∧ base = ofSegments names := by
  by_cases hbase : base = []
  · exact ⟨[], areNames_nil, hbase⟩
  · obtain ⟨names, hn, rfl, -⟩ := exists_names_of_mem_files h hf
    rw [IsPlain, segments_foldl_join (fun s hs => (hn s hs).noSlash) hbase] at hplain
    exact ⟨segments base, hplain.left, (ofSegments_segments base).symm⟩

/-- **A path of names that a walk finds** leads to a file, or is listed as one. -/
theorem exists_listed_of_mem_files (hp : fs.IsProject root) (h : fs.Lists IsName) {base f : Text}
    (hplain : IsPlain f) (hf : f ∈ files fs ignore root base) :
    fs.kind? (inside root (segments f)) = some .file ∨
      ∃ names entries e, segments f = names ++ [e.name] ∧
        fs.list (inside root names) = .ok entries ∧ e ∈ entries ∧ e.kind = .file := by
  obtain ⟨names, hn, rfl⟩ := exists_names_of_base h hplain hf
  simp only [files, start, absolute_ofSegments hn] at hf
  split at hf
  · rename_i hfile
    simp only [Bool.and_eq_true, Bool.not_eq_true', List.isEmpty_eq_false_iff] at hfile
    obtain rfl : f = ofSegments names := by simpa [Event.file?] using hf
    refine .inl ?_
    rw [← absolute_of_isPlain hplain root, absolute_ofSegments hn]
    simpa [FileSystem.isFile] using hfile.2
  · split at hf
    · obtain ⟨rel, hrel, rfl⟩ := reaches_of_mem_below hp hn hf
      obtain ⟨part, entries, e, rfl, hlist, he, hkind⟩ := hrel.exists_listed
      refine .inr ⟨names ++ part, entries, e, ?_, hlist, he, hkind⟩
      rw [segments_ofSegments (by simp) (hrel.areNames hp hn), List.append_assoc]
    · simp at hf

end Walk

/-! ### Disks -/

/-- A well-formed disk lists names. -/
lemma Disk.lists_isName {d : Disk} (h : d.WellFormed) : d.fileSystem.Lists Path.IsName := by
  intro path entries hlist e he
  obtain ⟨-, names, -, rfl⟩ := list_eq_ok.1 hlist
  obtain ⟨name, hname, rfl⟩ := List.mem_map.1 he
  rw [entry_name]
  exact (h.areNames _ (mem_childNames.1 hname)).2 name (by simp)

/-! ### Trees in memory -/

namespace MemoryTree

variable {t : MemoryTree}

/-- **A tree in memory lists segments of its locations**, whatever it is asked for. -/
theorem lists {IsGood : Text → Prop} (h : ∀ l ∈ t.locations, ∀ s ∈ l.segments, IsGood s) :
    t.fileSystem.Lists IsGood := by
  intro path entries hlist e he
  simp only [fileSystem, list] at hlist
  split at hlist
  · cases hlist
  split at hlist
  · cases hlist
    obtain ⟨name, hname, rfl⟩ := List.mem_map.1 he
    exact h _ (mem_childNames.1 hname) name (by simp)
  · split at hlist <;> cases hlist

/-- A well-formed tree lists names. -/
lemma lists_isName (h : t.WellFormed) : t.fileSystem.Lists Path.IsName :=
  lists fun l hl => (h.proper l hl).names

end MemoryTree

end GlobPreset
