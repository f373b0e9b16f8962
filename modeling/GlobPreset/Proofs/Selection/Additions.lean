import GlobPreset.Proofs.Emit.Outermost
import GlobPreset.Proofs.Selection.Ordered

/-!
# Runs of additions to a selection tree

Paths are added to a tree one after another, in place, and some of them are refused. What the tree
holds is at every moment determined by the paths that were taken: they are its files, and what leads
to them are its directories.

## Main definitions

* `SelectionTree.Holds` — a tree holds the files of some names, and what leads to them.
* `SelectionTree.afterAdding` — the tree after a run of additions.
* `SelectionTree.IsTaken` — names whose path was added in a run, and not refused.

## Main results

* `SelectionTree.Holds.isRefused_iff`, `SelectionTree.Holds.add` — one step of a run.
* `SelectionTree.holds_afterAdding` — **what a tree holds** after a run.
* `SelectionTree.eq_afterAdding_of_ofPaths` — the tree of some paths is one of a run.
* `SelectionTree.add_afterAdding` — the next addition after a run, and the views of the tree.
-/

set_option autoImplicit false

namespace GlobPreset

open GlobPreset.Path Text

/-- Of two different members of a list, the one that may not stand behind the other comes first. -/
lemma pair_sublist_of_pairwise {α : Type} {R : α → α → Prop} {l : List α} {a b : α}
    (h : l.Pairwise R) (ha : a ∈ l) (hb : b ∈ l) (hne : a ≠ b) (hnot : ¬ R b a) :
    [a, b].Sublist l := by
  obtain ⟨front, rest, rfl⟩ := List.append_of_mem ha
  rw [List.pairwise_append] at h
  rcases List.mem_append.1 hb with hfront | hrest
  · exact absurd (h.2.2 b hfront a List.mem_cons_self) hnot
  · have hrest : b ∈ rest := (List.mem_cons.1 hrest).resolve_left (Ne.symm hne)
    have hpair : [a, b].Sublist (a :: rest) := (List.singleton_sublist.2 hrest).cons_cons a
    exact hpair.trans (List.sublist_append_right front (a :: rest))

namespace SelectionTree

variable {tree : SelectionTree} {taken : List Text → Prop}

/-! ### One addition -/

/-- A tree holds the files of some names: they lead to files, what leads to them leads to a
directory, and nothing else leads anywhere. -/
structure Holds (taken : List Text → Prop) (tree : SelectionTree) : Prop where
  /-- The children of every directory are in order. -/
  ordered : tree.IsOrdered
  /-- The names lead to files. -/
  file_iff : ∀ l, find? l tree = some true ↔ taken l
  /-- What leads to one of the names is a directory. -/
  directory_iff : ∀ l, find? l tree = some false ↔
    l ≠ [] ∧ ∃ rest, rest ≠ [] ∧ taken (l ++ rest)

/-- Of two lists of names one leads to the other. -/
def Collide (l m : List Text) : Prop := l ≠ m ∧ (l <+: m ∨ m <+: l)

/-- Colliding is symmetric. -/
lemma Collide.symm {l m : List Text} (h : Collide l m) : Collide m l := ⟨h.1.symm, h.2.symm⟩

/-- A path collides with what is behind it. -/
lemma collide_append {rest : List Text} (hrest : rest ≠ []) (l : List Text) :
    Collide l (l ++ rest) :=
  ⟨fun heq => hrest (List.self_eq_append_right.1 heq), .inl (List.prefix_append l rest)⟩

/-- Adding a path is inserting its names; one that is refused leaves the tree. -/
lemma add_eq (h : tree.IsOrdered) (path : Text) :
    tree.add path =
      match insertNames (names path) tree with
      | .ok tree' => ⟨tree', none⟩
      | .error blocking => ⟨tree, some ⟨path, blocking⟩⟩ := by
  rw [add, addNames_eq h]
  cases insertNames (names path) tree <;> rfl

/-- **An addition in place** comes to the same as one that gives a new tree. -/
lemma insert_eq_add (h : tree.IsOrdered) (path : Text) :
    tree.insert path =
      match (tree.add path).refusal with
      | none => .ok (tree.add path).tree
      | some refusal => .error refusal := by
  rw [add_eq h, insert]
  cases insertNames (names path) tree <;> rfl

/-- A path without names adds nothing. -/
lemma add_of_names_eq_nil {path : Text} (h : names path = []) :
    tree.add path = ⟨tree, none⟩ := by
  rw [add, h]
  rfl

namespace Holds

variable {names : List Text}

/-- **Names are refused** if they lead to taken ones, or taken ones to them. -/
lemma isRefused_iff (h : Holds taken tree) (hne : names ≠ []) :
    (∃ blocking, insertNames names tree = .error blocking) ↔ ∃ l, taken l ∧ Collide l names := by
  simp only [insertNames_eq_error_iff h.ordered]
  constructor
  · rintro ⟨blocking, ⟨front, name, rest, rfl, hrest, -, hfind⟩ | ⟨-, hfind⟩⟩
    · have hcollide := collide_append hrest (front ++ [name])
      rw [← List.append_cons] at hcollide
      exact ⟨front ++ [name], (h.file_iff _).1 hfind, hcollide⟩
    · obtain ⟨-, rest, hrest, htaken⟩ := (h.directory_iff _).1 hfind
      exact ⟨names ++ rest, htaken, (collide_append hrest names).symm⟩
  · rintro ⟨l, htaken, hdiff, ⟨rest, rfl⟩ | ⟨rest, rfl⟩⟩
    · have hfind := (h.file_iff l).2 htaken
      have hrest : rest ≠ [] := fun hnil => hdiff (by rw [hnil, List.append_nil])
      rcases List.eq_nil_or_concat' l with rfl | ⟨front, name, rfl⟩
      · cases hfind
      · exact ⟨some name, .inl ⟨front, name, rest, by simp, hrest, rfl, hfind⟩⟩
    · have hrest : rest ≠ [] := fun hnil => hdiff (by rw [hnil, List.append_nil])
      exact ⟨none, .inr ⟨rfl, (h.directory_iff names).2 ⟨hne, rest, hrest, htaken⟩⟩⟩

/-- **Names that are not refused** are held from then on. -/
lemma insertNames {tree' : SelectionTree} (h : Holds taken tree) (hne : names ≠ [])
    (hsegments : AreSegments names) (hok : SelectionTree.insertNames names tree = .ok tree') :
    Holds (fun l => taken l ∨ l = names) tree' := by
  have hfree : ∀ l, taken l → ¬ Collide l names := by
    intro l htaken hcollide
    obtain ⟨blocking, herror⟩ := (h.isRefused_iff hne).2 ⟨l, htaken, hcollide⟩
    rw [hok] at herror
    cases herror
  have hfind := find?_insertNames hne hok
  refine ⟨h.ordered.of_insertNames hsegments hok, fun l => ?_, fun l => ?_⟩
  · rw [hfind]
    split
    · rename_i heq
      exact iff_of_true rfl (.inr heq)
    · rename_i hdiff
      split
      · rename_i hfront
        refine iff_of_false nofun ?_
        rintro (htaken | heq)
        · exact hfree l htaken ⟨hdiff, .inl hfront.2⟩
        · exact hdiff heq
      · rw [h.file_iff, or_iff_left hdiff]
  · rw [hfind]
    split
    · rename_i heq
      subst heq
      refine iff_of_false nofun ?_
      rintro ⟨-, rest, hrest, htaken | heq⟩
      · exact hfree _ htaken (collide_append hrest l).symm
      · exact hrest (List.append_right_eq_self.1 heq)
    · rename_i hdiff
      split
      · rename_i hfront
        obtain ⟨hnil, rest, hrest⟩ := hfront
        refine iff_of_true rfl ⟨hnil, rest, ?_, .inr hrest⟩
        rintro rfl
        exact hdiff (by rw [← hrest, List.append_nil])
      · rename_i hfront
        rw [h.directory_iff]
        refine and_congr_right fun hnil => exists_congr fun rest => and_congr_right fun _ => ?_
        rw [or_iff_left]
        exact fun heq => hfront ⟨hnil, rest, heq⟩

/-- **One step of a run**: a path that is not refused is held from then on, one that is refused
leaves the tree as it is. -/
lemma add (h : Holds taken tree) (path : Text) :
    Holds
      (fun l => taken l ∨ l = Path.names path ∧ l ≠ [] ∧ (tree.add path).refusal = none)
      (tree.add path).tree := by
  by_cases hnil : Path.names path = []
  · have hsame : (fun l => taken l ∨ l = Path.names path ∧ l ≠ [] ∧
        (tree.add path).refusal = none) = taken := by
      funext l
      rw [hnil]
      exact propext (or_iff_left fun hnew => hnew.2.1 hnew.1)
    rw [hsame, add_of_names_eq_nil hnil]
    exact h
  rw [add_eq h.ordered]
  cases hok : SelectionTree.insertNames (Path.names path) tree with
  | ok tree' =>
    have hnew : (fun l => taken l ∨ l = Path.names path ∧ l ≠ [] ∧
        (none : Option TreeConflict) = none) = fun l => taken l ∨ l = Path.names path := by
      funext l
      refine propext (or_congr_right ⟨fun hl => hl.1, ?_⟩)
      rintro rfl
      exact ⟨rfl, hnil, rfl⟩
    show Holds (fun l => taken l ∨ l = Path.names path ∧ l ≠ [] ∧
      (none : Option TreeConflict) = none) tree'
    rw [hnew]
    exact h.insertNames hnil (areSegments_names path) hok
  | error blocking => simpa using h

/-! ### Views -/

/-- What leads somewhere leads to one of the names. -/
lemma exists_taken (h : Holds taken tree) {l : List Text} (hfind : (find? l tree).isSome = true) :
    ∃ rest, taken (l ++ rest) := by
  obtain ⟨isFile, hfind⟩ := Option.isSome_iff_exists.1 hfind
  cases isFile with
  | true => exact ⟨[], by rw [List.append_nil]; exact (h.file_iff l).1 hfind⟩
  | false =>
    obtain ⟨-, rest, -, htaken⟩ := (h.directory_iff l).1 hfind
    exact ⟨rest, htaken⟩

/-- The files of a tree are the paths that are taken, each of them once. -/
lemma listsOnce_files (h : Holds taken tree) : ListsOnce tree.files taken := by
  simpa only [h.file_iff] using SelectionTree.listsOnce_files h.ordered

/-- The directories of a tree are what is in front of the paths that are taken, each of them once.
-/
lemma listsOnce_directories (h : Holds taken tree) :
    ListsOnce tree.directories fun l => l ≠ [] ∧ ∃ rest, rest ≠ [] ∧ taken (l ++ rest) := by
  simpa only [h.directory_iff] using SelectionTree.listsOnce_directories h.ordered

/-- What a directory is in is a directory as well. -/
lemma mem_directories_above (h : Holds taken tree) {above rest : Text}
    (hmem : above ++ .of '/' :: rest ∈ tree.directories) : above ∈ tree.directories := by
  obtain ⟨l, ⟨hnil, behind, hbehind, htaken⟩, hpath⟩ := h.listsOnce_directories.mem_iff.1 hmem
  have hsegments : AreSegments l :=
    (h.ordered.areSegments_of_find? (by rw [(h.file_iff _).2 htaken]; rfl)).left
  have hsplit : l = segments above ++ segments rest := by
    rw [← segments_append_slash, hpath]
    exact (hsegments.segments_ofSegments hnil).symm
  subst hsplit
  refine h.listsOnce_directories.mem_iff.2
    ⟨segments above, ⟨segments_ne_nil above, segments rest ++ behind, ?_, ?_⟩,
      (ofSegments_segments above).symm⟩
  · exact List.append_ne_nil_of_left_ne_nil (segments_ne_nil rest) behind
  · rwa [← List.append_assoc]

/-- **A directory comes before those that it is in**, the deepest being first. -/
lemma sublist_deepestFirst (h : Holds taken tree) {above rest : Text}
    (hmem : above ++ .of '/' :: rest ∈ tree.deepestFirst) :
    [above ++ .of '/' :: rest, above].Sublist tree.deepestFirst := by
  have hdepth := depth_lt_depth_append above rest
  have habove : above ∈ tree.deepestFirst := by
    rw [deepestFirst, mem_sortBy] at hmem ⊢
    exact h.mem_directories_above hmem
  refine pair_sublist_of_pairwise (isLinear_deeperFirst.pairwise _) hmem habove ?_ ?_
  · intro heq
    rw [heq] at hdepth
    omega
  · intro hdeeper
    have hle := depth_le_of_deeperFirst hdeeper
    omega

end Holds

/-! ### Runs -/

/-- The tree after some paths were added in place, one after another; a refused one does not end the
run. -/
def afterAdding (paths : List Text) : SelectionTree :=
  paths.foldl (fun tree path => (tree.add path).tree) empty

/-- The names were added in a run: they are those of a path that was not refused at its turn. -/
def IsTaken (paths : List Text) (l : List Text) : Prop :=
  ∃ before path after, paths = before ++ path :: after ∧ l = names path ∧ l ≠ [] ∧
    ((afterAdding before).add path).refusal = none

/-- Adding one more path is adding it to the tree of those before. -/
lemma afterAdding_concat (paths : List Text) (path : Text) :
    afterAdding (paths ++ [path]) = ((afterAdding paths).add path).tree := by
  rw [afterAdding, List.foldl_append]
  rfl

/-- What is taken are the names of one of the paths. -/
lemma IsTaken.exists_path {paths : List Text} {l : List Text} (h : IsTaken paths l) :
    ∃ path ∈ paths, l = names path := by
  obtain ⟨before, path, after, rfl, hl, -⟩ := h
  exact ⟨path, by simp, hl⟩

/-- One more path is taken if it is not refused. -/
lemma isTaken_concat (paths : List Text) (path : Text) :
    IsTaken (paths ++ [path]) = fun l => IsTaken paths l ∨
      l = names path ∧ l ≠ [] ∧ ((afterAdding paths).add path).refusal = none := by
  funext l
  refine propext ⟨?_, ?_⟩
  · rintro ⟨before, other, after, heq, hl⟩
    rcases List.eq_nil_or_concat' after with rfl | ⟨after, last, rfl⟩
    · obtain ⟨rfl, hlast⟩ := List.append_inj' heq rfl
      obtain rfl := List.singleton_inj.1 hlast
      exact .inr hl
    · have hsplit : paths ++ [path] = (before ++ other :: after) ++ [last] := by
        rw [heq, List.append_assoc, List.cons_append]
      exact .inl ⟨before, other, after, (List.append_inj' hsplit rfl).1, hl⟩
  · rintro (⟨before, other, after, rfl, hl⟩ | hl)
    · exact ⟨before, other, after ++ [path], by simp, hl⟩
    · exact ⟨paths, path, [], rfl, hl⟩

/-- **What a tree holds after a run** is what was taken in it. -/
theorem holds_afterAdding (paths : List Text) : Holds (IsTaken paths) (afterAdding paths) := by
  induction paths using List.reverseRecOn with
  | nil =>
    have hnone : ∀ l, ¬ IsTaken [] l := by
      rintro l ⟨before, path, after, heq, -⟩
      simp at heq
    refine ⟨trivial, fun l => ?_, fun l => ?_⟩
    · exact iff_of_false (by rw [afterAdding, List.foldl_nil, find?_empty]; nofun) (hnone l)
    · refine iff_of_false (by rw [afterAdding, List.foldl_nil, find?_empty]; nofun) ?_
      rintro ⟨-, rest, -, htaken⟩
      exact hnone _ htaken
  | append_singleton paths path ih =>
    rw [isTaken_concat, afterAdding_concat]
    exact ih.add path

/-- **The tree of some paths** is that of a run in which no path is refused. -/
theorem eq_afterAdding_of_ofPaths {paths : List Text} (h : ofPaths paths = .ok tree) :
    tree = afterAdding paths := by
  -- the run goes on from where the paths before have led
  have key : ∀ rest before : List Text,
      rest.foldlM SelectionTree.insert (afterAdding before) = .ok tree →
        tree = afterAdding (before ++ rest) := by
    intro rest
    induction rest with
    | nil =>
      intro before h
      cases h
      rw [List.append_nil]
    | cons path rest ih =>
      intro before h
      rw [List.foldlM_cons, insert_eq_add (holds_afterAdding before).ordered] at h
      cases hrefusal : ((afterAdding before).add path).refusal with
      | some refusal =>
        rw [hrefusal] at h
        cases h
      | none =>
        rw [hrefusal] at h
        rw [List.append_cons]
        refine ih (before ++ [path]) ?_
        rw [afterAdding_concat]
        exact h
  exact key paths [] h

/-- **The next addition after a run of additions**, and the views of the tree.

A path without names is added without any effect. Another one is refused exactly if its names lead
to those of a path that was taken before, or the other way round, and a refusal leaves the tree as
it was. The files are what was taken and the directories what leads there, each of them listed once;
with the deepest first, a directory comes before all that it is in. -/
theorem add_afterAdding (paths : List Text) (path : Text) :
    (names path = [] → (afterAdding paths).add path = ⟨afterAdding paths, none⟩) ∧
      (names path ≠ [] → (((afterAdding paths).add path).refusal ≠ none ↔
        ∃ l, IsTaken paths l ∧ Collide l (names path))) ∧
      (((afterAdding paths).add path).refusal ≠ none →
        ((afterAdding paths).add path).tree = afterAdding paths) ∧
      ListsOnce (afterAdding paths).files (IsTaken paths) ∧
      ListsOnce (afterAdding paths).directories
        (fun l => l ≠ [] ∧ ∃ rest, rest ≠ [] ∧ IsTaken paths (l ++ rest)) ∧
      (afterAdding paths).deepestFirst.Perm (afterAdding paths).directories ∧
      ∀ above rest, above ++ .of '/' :: rest ∈ (afterAdding paths).deepestFirst →
        [above ++ .of '/' :: rest, above].Sublist (afterAdding paths).deepestFirst := by
  have h := holds_afterAdding paths
  refine ⟨add_of_names_eq_nil, fun hne => ?_, ?_, h.listsOnce_files, h.listsOnce_directories,
    sortBy_perm _ _, fun above rest => h.sublist_deepestFirst⟩
  · rw [← h.isRefused_iff hne, add_eq h.ordered]
    cases insertNames (names path) (afterAdding paths) <;> simp
  · rw [add_eq h.ordered]
    cases insertNames (names path) (afterAdding paths) with
    | ok tree => exact fun hrefused => absurd rfl hrefused
    | error blocking => exact fun _ => rfl

/-- Paths of which two are refused: one leads to a path that is taken, one goes on behind one. The
first path is spelled in two ways. -/
def mixedRun : List Text :=
  ["b/c//d".toText, "a".toText, "b/c".toText, "a/x".toText, "b/c/d".toText]

/-- After such paths, one that leads to a taken one is refused and leaves no trace. -/
theorem add_afterAdding_mixedRun :
    (afterAdding mixedRun).files = ["b/c/d".toText, "a".toText] ∧
      ((afterAdding mixedRun).add "b".toText).refusal ≠ none ∧
      ((afterAdding mixedRun).add "b".toText).tree = afterAdding mixedRun ∧
      (afterAdding mixedRun).add "//".toText = ⟨afterAdding mixedRun, none⟩ := by
  have htaken : IsTaken mixedRun ["b".toText, "c".toText, "d".toText] :=
    ⟨["b/c//d".toText, "a".toText, "b/c".toText, "a/x".toText], "b/c/d".toText, [], rfl, by decide,
      by decide, by decide +kernel⟩
  obtain ⟨-, hrefused, hsame, -⟩ := add_afterAdding mixedRun "b".toText
  have hcollides : ((afterAdding mixedRun).add "b".toText).refusal ≠ none :=
    (hrefused (by decide)).2 ⟨_, htaken, by decide, .inr ⟨["c".toText, "d".toText], by decide⟩⟩
  exact ⟨by decide +kernel, hcollides, hsame hcollides,
    (add_afterAdding mixedRun "//".toText).1 (by decide)⟩

end SelectionTree

end GlobPreset
