import GlobPreset.Proofs.Scan.Distinct
import GlobPreset.Proofs.Selection.Tree

/-!
# Ordered selection trees

A tree keeps the children of a directory in order of name, directories first. What its names lead to
says everything about it: an addition changes what the added names and those in front of them lead
to, a refusal depends on what they lead to, and the nodes are what leads somewhere.

## Main definitions

* `SelectionTree.IsOrdered` — the children of every directory are in order, and their names differ.
* `SelectionTree.find?` — what names lead to.
* `SelectionTree.nodeNames` — the names that lead somewhere, depth first.

## Main results

* `SelectionTree.find?_insertNames` — what an addition changes.
* `SelectionTree.insertNames_eq_error_iff` — when, and for which file, names are refused.
* `SelectionTree.addNames_eq` — **an addition in place** that is refused leaves no trace.
* `SelectionTree.nodes_eq`, `SelectionTree.mem_nodeNames`, `SelectionTree.nodup_nodeNames` — the
  nodes of a tree are what names lead to, each of them once.

## Design

The children could be kept in any order and be sorted for every view. Here an addition finds its
place by the order, and what is said about additions rests on `IsOrdered`: without it, a directory
could be put into a second place (`putDirectory_self`).
-/

set_option autoImplicit false

namespace GlobPreset

open GlobPreset.Path

/-! ### Segments -/

namespace Path

/-- Every text of a list may stand between slashes. -/
def AreSegments (l : List Text) : Prop := ∀ s ∈ l, IsSegment s

/-- The first ones of some segments are segments. -/
lemma AreSegments.left {l m : List Text} (h : AreSegments (l ++ m)) : AreSegments l :=
  fun s hs => h s (List.mem_append_left m hs)

/-- One more segment makes segments. -/
lemma AreSegments.concat {l : List Text} (h : AreSegments l) {s : Text} (hs : IsSegment s) :
    AreSegments (l ++ [s]) := by
  intro t ht
  rcases List.mem_append.1 ht with ht | ht
  · exact h t ht
  · exact List.mem_singleton.1 ht ▸ hs

/-- The names of a path are segments. -/
lemma areSegments_names (path : Text) : AreSegments (names path) := by
  intro s hs
  obtain ⟨hs, hne⟩ := List.mem_filter.1 hs
  exact ⟨by simpa using hne, Text.not_mem_of_mem_splitOn hs⟩

/-- **Segments are given by their path.** -/
lemma AreSegments.segments_ofSegments {l : List Text} (h : AreSegments l) (hne : l ≠ []) :
    segments (ofSegments l) = l :=
  Text.splitOn_joinWith (.of '/') hne fun s hs => (h s hs).2

/-- The names of a path of segments are these. -/
lemma AreSegments.names_ofSegments {l : List Text} (h : AreSegments l) :
    names (ofSegments l) = l := by
  by_cases hnil : l = []
  · subst hnil
    rfl
  · rw [names, h.segments_ofSegments hnil, List.filter_eq_self]
    exact fun s hs => by simpa using (h s hs).1

/-- Segments are determined by their path. -/
lemma AreSegments.eq_of_ofSegments_eq {l m : List Text} (hl : AreSegments l) (hm : AreSegments m)
    (h : ofSegments l = ofSegments m) : l = m := by
  rw [← hl.names_ofSegments, h, hm.names_ofSegments]

/-- Joining a segment to a path is adding it to the segments. -/
lemma AreSegments.join_ofSegments {l : List Text} (h : AreSegments l) (s : Text) :
    join (ofSegments l) s = ofSegments (l ++ [s]) := by
  by_cases hnil : l = []
  · subst hnil
    rfl
  · have hne : (ofSegments l).isEmpty = false := by
      rw [List.isEmpty_eq_false_iff]
      intro hempty
      have hnames := h.names_ofSegments
      rw [hempty] at hnames
      exact hnil hnames.symm
    rw [join, hne, ofSegments_append hnil (List.cons_ne_nil s [])]
    rfl

/-- The texts are the paths of certain lists of segments, each of them listed once. -/
def ListsOnce (paths : List Text) (listed : List Text → Prop) : Prop :=
  paths.Nodup ∧ ∃ lists : List (List Text),
    lists.Nodup ∧ (∀ l, l ∈ lists ↔ listed l) ∧ paths = lists.map ofSegments

/-- What is listed once is what is to be listed. -/
lemma ListsOnce.mem_iff {paths : List Text} {listed : List Text → Prop} (h : ListsOnce paths listed)
    {path : Text} : path ∈ paths ↔ ∃ l, listed l ∧ path = ofSegments l := by
  obtain ⟨-, lists, -, hlists, rfl⟩ := h
  simp only [List.mem_map, hlists, eq_comm]

/-- Different lists of segments have different paths. -/
lemma listsOnce_map {lists : List (List Text)} {listed : List Text → Prop} {paths : List Text}
    (hnodup : lists.Nodup) (hlists : ∀ l, l ∈ lists ↔ listed l)
    (hsegments : ∀ l, listed l → AreSegments l) (hpaths : paths = lists.map ofSegments) :
    ListsOnce paths listed := by
  refine ⟨?_, lists, hnodup, hlists, hpaths⟩
  rw [hpaths]
  refine hnodup.map_on fun l hl m hm heq => ?_
  exact (hsegments l ((hlists l).1 hl)).eq_of_ofSegments_eq (hsegments m ((hlists m).1 hm)) heq

end Path

/-! ### The strict order of texts -/

/-- A text stands in front of a different one. -/
def Text.IsBefore (s t : Text) : Prop := le s t = true ∧ s ≠ t

/-- Standing strictly before another text is transitive. -/
lemma Text.IsBefore.trans {s t u : Text} (h : IsBefore s t) (h' : IsBefore t u) : IsBefore s u := by
  refine ⟨le_trans h.1 h'.1, ?_⟩
  rintro rfl
  exact h.2 (le_antisymm h.1 h'.1)

/-- A text that is not before another one or equal to it is behind it. -/
lemma Text.isBefore_of_not_le {s t : Text} (h : ¬ le s t = true) : IsBefore t s := by
  refine ⟨(le_total s t).resolve_left h, ?_⟩
  rintro rfl
  exact h (le_refl t)

namespace SelectionTree

variable {tree tree' children : SelectionTree} {name : Text}

/-! ### The order of children -/

/-- Putting a file in adds the file of that name. -/
lemma hasFile_putFile (name other : Text) (tree : SelectionTree) :
    (tree.putFile name).hasFile other = (name == other || tree.hasFile other) := by
  induction tree with
  | empty => rfl
  | directory n inner others _ ih => simp only [SelectionTree.putFile, hasFile, ih]
  | file n others ih =>
    unfold SelectionTree.putFile
    split
    · rename_i hname
      subst hname
      simp only [hasFile, ← Bool.or_assoc, Bool.or_self]
    · split
      · rfl
      · simp only [hasFile, ih, Bool.or_left_comm]

/-- Putting a directory in adds no file. -/
lemma hasFile_putDirectory (name other : Text) (children tree : SelectionTree) :
    (putDirectory name children tree).hasFile other = tree.hasFile other := by
  induction tree with
  | empty => rfl
  | file n others _ => rfl
  | directory n inner others _ ih =>
    unfold putDirectory
    split
    · rfl
    · split
      · rfl
      · simp only [hasFile, ih]

/-- The children of every directory are in order, directories before files, and a name is that of
one child only. -/
def IsOrdered : SelectionTree → Prop
  | empty => True
  | directory name children others =>
    IsSegment name ∧ IsOrdered children ∧ IsOrdered others ∧ others.hasFile name = false ∧
      ∀ other, (others.childrenOf? other).isSome = true → Text.IsBefore name other
  | file name others =>
    IsSegment name ∧ IsOrdered others ∧ (∀ other, others.childrenOf? other = none) ∧
      ∀ other, others.hasFile other = true → Text.IsBefore name other

/-- A subdirectory of an ordered tree is ordered, and there is no file of its name. -/
lemma IsOrdered.of_childrenOf? (h : tree.IsOrdered)
    (hname : tree.childrenOf? name = some children) :
    IsSegment name ∧ children.IsOrdered ∧ tree.hasFile name = false := by
  induction tree with
  | empty => cases hname
  | directory n inner others _ ih =>
    obtain ⟨hn, hinner, hothers, hfile, -⟩ := h
    rw [childrenOf?] at hname
    split at hname
    · rename_i heq
      subst heq
      cases hname
      exact ⟨hn, hinner, hfile⟩
    · exact ih hothers hname
  | file n others _ =>
    rw [childrenOf?, h.2.2.1 name] at hname
    cases hname

/-- A file of an ordered tree is called by a segment, and there is no directory of its name. -/
lemma IsOrdered.of_hasFile (h : tree.IsOrdered) (hname : tree.hasFile name = true) :
    IsSegment name ∧ tree.childrenOf? name = none := by
  induction tree with
  | empty => cases hname
  | directory n inner others _ ih =>
    obtain ⟨-, -, hothers, hfile, -⟩ := h
    obtain ⟨hseg, hnone⟩ := ih hothers hname
    refine ⟨hseg, ?_⟩
    rw [childrenOf?, if_neg ?_, hnone]
    rintro rfl
    exact absurd hname (by rw [hasFile, hfile]; decide)
  | file n others ih =>
    refine ⟨?_, h.2.2.1 name⟩
    rw [hasFile, Bool.or_eq_true, beq_iff_eq] at hname
    rcases hname with rfl | hname
    · exact h.1
    · exact (ih h.2.1 hname).1

/-- A file that comes to stand beside the others keeps the order. -/
lemma IsOrdered.putFile (h : tree.IsOrdered) (hname : IsSegment name)
    (hnone : tree.childrenOf? name = none) : (tree.putFile name).IsOrdered := by
  induction tree with
  | empty => exact ⟨hname, trivial, fun _ => rfl, fun _ => nofun⟩
  | directory n inner others _ ih =>
    obtain ⟨hn, hinner, hothers, hfile, hbefore⟩ := h
    rw [childrenOf?] at hnone
    split at hnone
    · cases hnone
    · rename_i hne
      refine ⟨hn, hinner, ih hothers hnone, ?_, fun other hother => ?_⟩
      · rw [hasFile_putFile, hfile, Bool.or_false, beq_eq_false_iff_ne]
        exact Ne.symm hne
      · rw [childrenOf?_putFile] at hother
        exact hbefore other hother
  | file n others ih =>
    obtain ⟨hn, hothers, hdirs, hbefore⟩ := h
    unfold SelectionTree.putFile
    split
    · exact ⟨hn, hothers, hdirs, hbefore⟩
    · rename_i hne
      split
      · rename_i hle
        refine ⟨hname, ⟨hn, hothers, hdirs, hbefore⟩, hdirs, fun other hother => ?_⟩
        have hfirst : Text.IsBefore name n := ⟨hle, Ne.symm hne⟩
        rw [hasFile, Bool.or_eq_true, beq_iff_eq] at hother
        rcases hother with rfl | hother
        · exact hfirst
        · exact hfirst.trans (hbefore other hother)
      · rename_i hle
        refine ⟨hn, ih hothers hnone, fun other => ?_, fun other hother => ?_⟩
        · rw [childrenOf?_putFile, hdirs]
        · rw [hasFile_putFile, Bool.or_eq_true, beq_iff_eq] at hother
          rcases hother with rfl | hother
          · exact Text.isBefore_of_not_le hle
          · exact hbefore other hother

/-- A directory that comes to stand beside the others, or in the place of one, keeps the order. -/
lemma IsOrdered.putDirectory (h : tree.IsOrdered) (hname : IsSegment name)
    (hfile : tree.hasFile name = false) (hchildren : children.IsOrdered) :
    (SelectionTree.putDirectory name children tree).IsOrdered := by
  induction tree with
  | empty => exact ⟨hname, hchildren, trivial, rfl, fun _ => nofun⟩
  | file n others _ =>
    refine ⟨hname, hchildren, h, hfile, fun other hother => ?_⟩
    rw [childrenOf?, h.2.2.1 other] at hother
    cases hother
  | directory n inner others _ ih =>
    have hself := h
    obtain ⟨hn, hinner, hothers, hnfile, hbefore⟩ := h
    unfold SelectionTree.putDirectory
    split
    · rename_i heq
      subst heq
      exact ⟨hname, hchildren, hothers, hnfile, hbefore⟩
    · rename_i hne
      split
      · rename_i hle
        refine ⟨hname, hchildren, hself, hfile, fun other hother => ?_⟩
        have hfirst : Text.IsBefore name n := ⟨hle, Ne.symm hne⟩
        rw [childrenOf?] at hother
        split at hother
        · rename_i heq
          exact heq ▸ hfirst
        · exact hfirst.trans (hbefore other hother)
      · rename_i hle
        refine ⟨hn, hinner, ih hothers hfile, ?_, fun other hother => ?_⟩
        · rw [hasFile_putDirectory, hnfile]
        · rw [childrenOf?_putDirectory] at hother
          split at hother
          · rename_i heq
            exact heq ▸ Text.isBefore_of_not_le hle
          · exact hbefore other hother

/-- **A directory that is put back** is no change. -/
lemma putDirectory_self (h : tree.IsOrdered) (hname : tree.childrenOf? name = some children) :
    putDirectory name children tree = tree := by
  induction tree with
  | empty => cases hname
  | file n others _ =>
    rw [childrenOf?, h.2.2.1 name] at hname
    cases hname
  | directory n inner others _ ih =>
    obtain ⟨-, -, hothers, -, hbefore⟩ := h
    rw [childrenOf?] at hname
    unfold putDirectory
    split at hname
    · rename_i heq
      subst heq
      cases hname
      rw [if_pos rfl]
    · rename_i hne
      -- the directory is among the others, so it does not belong in front of them
      have hlater : Text.IsBefore n name := hbefore name (by rw [hname]; rfl)
      have hle : ¬ Text.le name n = true := fun hle => hlater.2 (Text.le_antisymm hlater.1 hle)
      rw [if_neg hne, if_neg hle, ih hothers hname]

/-! ### What names lead to -/

/-- What names lead to: a file (`true`), a directory (`false`) or nothing. -/
def find? : List Text → SelectionTree → Option Bool
  | [], _ => none
  | [name], tree =>
    if tree.hasFile name then some true else (tree.childrenOf? name).map fun _ => false
  | name :: next :: names, tree => (tree.childrenOf? name).bind (find? (next :: names))

/-- Nothing is found in the empty tree. -/
lemma find?_empty (names : List Text) : find? names empty = none := by
  cases names with
  | nil => rfl
  | cons name names => cases names <;> rfl

/-- Behind a name it counts what the others lead to from its directory. -/
lemma find?_cons {names : List Text} (hne : names ≠ []) (name : Text) (tree : SelectionTree) :
    find? (name :: names) tree = find? names ((tree.childrenOf? name).getD empty) := by
  obtain ⟨next, names, rfl⟩ := List.exists_cons_of_ne_nil hne
  rw [find?]
  cases tree.childrenOf? name with
  | none => exact (find?_empty _).symm
  | some children => rfl

/-- A single name finds a file if the tree has a file of that name. -/
lemma find?_singleton_eq_true_iff : find? [name] tree = some true ↔ tree.hasFile name = true := by
  rw [find?]
  split <;> simp_all

/-- A single name finds a directory if the tree has a directory of that name. -/
lemma IsOrdered.find?_singleton_eq_false_iff (h : tree.IsOrdered) :
    find? [name] tree = some false ↔ (tree.childrenOf? name).isSome = true := by
  rw [find?]
  split
  · rename_i hfile
    simp [(h.of_hasFile hfile).2]
  · cases tree.childrenOf? name <;> simp

/-- The children of a directory are ordered; a directory that is missing has none. -/
lemma IsOrdered.getD_childrenOf? (h : tree.IsOrdered) (name : Text) :
    ((tree.childrenOf? name).getD empty).IsOrdered := by
  cases hchildren : tree.childrenOf? name with
  | none => trivial
  | some children => exact (h.of_childrenOf? hchildren).2.1

/-- Names that lead to something are segments. -/
lemma IsOrdered.areSegments_of_find? {names : List Text} :
    ∀ {tree : SelectionTree}, tree.IsOrdered → (find? names tree).isSome = true →
      AreSegments names := by
  induction names with
  | nil => exact fun _ _ _ hs => absurd hs List.not_mem_nil
  | cons name names ih =>
    intro tree h hfind
    by_cases hnil : names = []
    · subst hnil
      have hseg : IsSegment name := by
        obtain ⟨isFile, hfind⟩ := Option.isSome_iff_exists.1 hfind
        cases isFile with
        | true => exact (h.of_hasFile (find?_singleton_eq_true_iff.1 hfind)).1
        | false =>
          obtain ⟨children, hchildren⟩ :=
            Option.isSome_iff_exists.1 (h.find?_singleton_eq_false_iff.1 hfind)
          exact (h.of_childrenOf? hchildren).1
      exact fun s hs => List.mem_singleton.1 hs ▸ hseg
    · rw [find?_cons hnil] at hfind
      cases hchildren : tree.childrenOf? name with
      | none =>
        rw [hchildren, Option.getD_none, find?_empty] at hfind
        cases hfind
      | some children =>
        rw [hchildren] at hfind
        obtain ⟨hname, hordered, -⟩ := h.of_childrenOf? hchildren
        exact List.forall_mem_cons.2 ⟨hname, ih hordered hfind⟩

/-- **What an addition changes**: the names lead to a file from then on, what leads to them leads to
a directory, and everything else stays as it is. -/
theorem find?_insertNames {names : List Text} : ∀ {tree tree' : SelectionTree},
    names ≠ [] → insertNames names tree = .ok tree' → ∀ l,
      find? l tree' =
        if l = names then some true
        else if l ≠ [] ∧ l <+: names then some false
        else find? l tree := by
  induction names with
  | nil => exact fun hne => absurd rfl hne
  | cons name names ih =>
    intro tree tree' _ h l
    cases names with
    | nil =>
      unfold insertNames at h
      split at h
      · cases h
      · rename_i hnone
        cases h
        match l with
        | [] => rfl
        | [n] =>
          simp only [find?, hasFile_putFile, childrenOf?_putFile, List.cons.injEq, and_true,
            List.cons_prefix_cons, List.nil_prefix, ne_eq, reduceCtorEq, not_false_eq_true,
            true_and]
          by_cases hname : n = name
          · simp [hname]
          · simp [hname, Ne.symm hname]
        | n :: m :: l => simp [find?, childrenOf?_putFile]
    | cons next names =>
      unfold insertNames at h
      split at h
      · cases h
      rename_i hnofile
      cases hinner : insertNames (next :: names) ((tree.childrenOf? name).getD empty) with
      | error blocking => simp [hinner, bind, Except.bind] at h
      | ok children =>
        simp only [hinner, bind, Except.bind, pure, Except.pure, Except.ok.injEq] at h
        subst h
        match l with
        | [] => rfl
        | [n] =>
          simp only [find?, hasFile_putDirectory, childrenOf?_putDirectory]
          by_cases hname : n = name
          · subst hname
            simp [hnofile]
          · simp [hname, Ne.symm hname]
        | n :: m :: l =>
          rw [find?_cons (List.cons_ne_nil _ _), find?_cons (List.cons_ne_nil _ _),
            childrenOf?_putDirectory]
          by_cases hname : n = name
          · subst hname
            rw [if_pos rfl, Option.getD_some, ih (List.cons_ne_nil _ _) hinner]
            simp only [List.cons.injEq, true_and, List.cons_prefix_cons, ne_eq, reduceCtorEq,
              not_false_eq_true]
          · simp [hname, Ne.symm hname]

/-- **When names are refused**: a file stands where they need a directory, and is named in the
refusal, or they lead to a directory themselves. -/
theorem insertNames_eq_error_iff {names : List Text} {blocking : Option Text} :
    ∀ {tree : SelectionTree}, tree.IsOrdered →
      (insertNames names tree = .error blocking ↔
        (∃ front name rest, names = front ++ name :: rest ∧ rest ≠ [] ∧ blocking = some name ∧
          find? (front ++ [name]) tree = some true) ∨
        blocking = none ∧ find? names tree = some false) := by
  induction names with
  | nil =>
    intro tree _
    refine iff_of_false nofun ?_
    rintro (⟨front, name, rest, hnames, -⟩ | ⟨-, hfind⟩)
    · exact absurd hnames.symm (by simp)
    · cases hfind
  | cons name names ih =>
    intro tree h
    cases names with
    | nil =>
      have hshort : ¬ ∃ front n rest, [name] = front ++ n :: rest ∧ rest ≠ [] ∧
          blocking = some n ∧ find? (front ++ [n]) tree = some true := by
        rintro ⟨front, n, rest, hnames, hrest, -⟩
        have hlength := congrArg List.length hnames
        have hpos := List.length_pos_of_ne_nil hrest
        simp only [List.length_append, List.length_cons, List.length_nil] at hlength
        omega
      rw [or_iff_right hshort, h.find?_singleton_eq_false_iff, insertNames]
      cases tree.childrenOf? name with
      | none => simp
      | some children => simp [eq_comm]
    | cons next names =>
      rw [insertNames]
      split
      · rename_i hfile
        have hnone := (h.of_hasFile hfile).2
        constructor
        · intro hblocking
          cases hblocking
          exact .inl ⟨[], name, next :: names, rfl, List.cons_ne_nil _ _, rfl,
            find?_singleton_eq_true_iff.2 hfile⟩
        · rintro (⟨front, n, rest, hnames, -, rfl, hfind⟩ | ⟨-, hfind⟩)
          · rcases List.append_eq_cons_iff.1 hnames.symm with ⟨rfl, hcons⟩ | ⟨front, rfl, -⟩
            · rw [(List.cons.inj hcons).1]
            · rw [List.cons_append, find?_cons (by simp), hnone, Option.getD_none,
                find?_empty] at hfind
              cases hfind
          · rw [find?_cons (List.cons_ne_nil _ _), hnone, Option.getD_none, find?_empty] at hfind
            cases hfind
      · rename_i hnofile
        have hbelow : (do
              let children ← insertNames (next :: names) ((tree.childrenOf? name).getD empty)
              return putDirectory name children tree : Except (Option Text) SelectionTree) =
                .error blocking ↔
            insertNames (next :: names) ((tree.childrenOf? name).getD empty) =
              .error blocking := by
          cases insertNames (next :: names) ((tree.childrenOf? name).getD empty) <;>
            simp [bind, Except.bind, pure, Except.pure]
        rw [hbelow, ih (h.getD_childrenOf? name), find?_cons (List.cons_ne_nil _ _)]
        refine or_congr_left ?_
        constructor
        · rintro ⟨front, n, rest, hnames, hrest, hblocking, hfind⟩
          refine ⟨name :: front, n, rest, by rw [hnames, List.cons_append], hrest, hblocking, ?_⟩
          rw [List.cons_append, find?_cons (by simp), hfind]
        · rintro ⟨front, n, rest, hnames, hrest, hblocking, hfind⟩
          rcases List.append_eq_cons_iff.1 hnames.symm with ⟨rfl, hcons⟩ | ⟨front, rfl, htail⟩
          · obtain ⟨rfl, -⟩ := List.cons.inj hcons
            exact absurd (find?_singleton_eq_true_iff.1 hfind) hnofile
          · rw [List.cons_append, find?_cons (by simp)] at hfind
            exact ⟨front, n, rest, htail, hrest, hblocking, hfind⟩

/-- What an addition leaves is in order. -/
lemma IsOrdered.of_insertNames {names : List Text} : ∀ {tree tree' : SelectionTree},
    tree.IsOrdered → AreSegments names → insertNames names tree = .ok tree' → tree'.IsOrdered := by
  induction names with
  | nil =>
    intro tree tree' h _ hok
    cases hok
    exact h
  | cons name names ih =>
    intro tree tree' h hnames hok
    obtain ⟨hname, hrest⟩ := List.forall_mem_cons.1 hnames
    cases names with
    | nil =>
      unfold insertNames at hok
      split at hok
      · cases hok
      · rename_i hnone
        cases hok
        exact h.putFile hname hnone
    | cons next names =>
      unfold insertNames at hok
      split at hok
      · cases hok
      rename_i hnofile
      cases hinner : insertNames (next :: names) ((tree.childrenOf? name).getD empty) with
      | error blocking => simp [hinner, bind, Except.bind] at hok
      | ok children =>
        simp only [hinner, bind, Except.bind, pure, Except.pure, Except.ok.injEq] at hok
        subst hok
        exact h.putDirectory hname (by simpa using hnofile)
          (ih (h.getD_childrenOf? name) hrest hinner)

/-! ### In place -/

/-- **An addition in place** leaves the tree with what was added; one that is refused leaves the
tree as it was, also the directories that it has put there on its way.

**Proof sketch.** Induction on the names. A directory that was there is put back; one that was
missing is empty, where nothing is refused. -/
theorem addNames_eq {names : List Text} : ∀ {tree : SelectionTree}, tree.IsOrdered →
    addNames names tree =
      match insertNames names tree with
      | .ok tree' => (tree', none)
      | .error blocking => (tree, some blocking) := by
  induction names with
  | nil => exact fun _ => rfl
  | cons name names ih =>
    intro tree h
    cases names with
    | nil =>
      rw [addNames, insertNames]
      cases tree.childrenOf? name <;> rfl
    | cons next names =>
      rw [addNames, insertNames]
      split
      · rfl
      rw [ih (h.getD_childrenOf? name)]
      cases hinner : insertNames (next :: names) ((tree.childrenOf? name).getD empty) with
      | ok children => rfl
      | error blocking =>
        cases hchildren : tree.childrenOf? name with
        | some children =>
          show (putDirectory name children tree, some blocking) = (tree, some blocking)
          rw [putDirectory_self h hchildren]
        | none =>
          -- nothing is refused by the empty tree
          have hempty : IsOrdered empty := trivial
          rw [hchildren, Option.getD_none, insertNames_eq_error_iff hempty] at hinner
          simp only [find?_empty, reduceCtorEq, and_false, exists_const, or_self] at hinner

/-! ### Nodes -/

/-- The names that lead somewhere, depth first, and whether they lead to a file. -/
def nodeNames : SelectionTree → List (List Text × Bool)
  | empty => []
  | directory name children others =>
    ([name], false) :: ((nodeNames children).map fun p => (name :: p.1, p.2)) ++ nodeNames others
  | file name others => ([name], true) :: nodeNames others

/-- **The nodes of a tree** are given by the names that lead somewhere. -/
theorem nodesBelow_eq : ∀ {tree : SelectionTree} {above : List Text}, tree.IsOrdered →
    AreSegments above → nodesBelow (ofSegments above) tree =
      tree.nodeNames.map fun p => ⟨ofSegments (above ++ p.1), p.2⟩ := by
  intro tree
  induction tree with
  | empty => exact fun _ _ => rfl
  | directory name children others ihchildren ihothers =>
    intro above h habove
    rw [nodesBelow, habove.join_ofSegments, ihchildren h.2.1 (habove.concat h.1),
      ihothers h.2.2.1 habove]
    simp [nodeNames, Function.comp_def]
  | file name others ih =>
    intro above h habove
    rw [nodesBelow, habove.join_ofSegments, ih h.2.1 habove]
    simp [nodeNames]

/-- The nodes of an ordered tree, by their names. -/
lemma nodes_eq (h : tree.IsOrdered) :
    tree.nodes = tree.nodeNames.map fun p => ⟨ofSegments p.1, p.2⟩ := by
  have hnil : AreSegments [] := fun _ hs => absurd hs List.not_mem_nil
  exact nodesBelow_eq h hnil

/-- Nothing is found behind a name that the tree does not have. -/
lemma find?_cons_eq_none (hfile : tree.hasFile name = false) (hnone : tree.childrenOf? name = none)
    (names : List Text) : find? (name :: names) tree = none := by
  by_cases hnil : names = []
  · rw [hnil, find?, hfile, hnone]
    rfl
  · rw [find?_cons hnil, hnone, Option.getD_none, find?_empty]

/-- The name in front is not one of the others. -/
lemma IsOrdered.find?_others_of_directory {others : SelectionTree}
    (h : (directory name children others).IsOrdered) (names : List Text) :
    find? (name :: names) others = none := by
  obtain ⟨-, -, -, hfile, hbefore⟩ := h
  refine find?_cons_eq_none hfile ?_ names
  rw [← Option.not_isSome_iff_eq_none]
  exact fun hsome => (hbefore name hsome).2 rfl

/-- Behind a file, nothing else has its name. -/
lemma IsOrdered.find?_others_of_file {others : SelectionTree}
    (h : (file name others).IsOrdered) (names : List Text) :
    find? (name :: names) others = none := by
  obtain ⟨-, -, hnone, hbefore⟩ := h
  refine find?_cons_eq_none ?_ (hnone name) names
  rw [Bool.eq_false_iff]
  exact fun hfile => (hbefore name hfile).2 rfl

/-- What is found in a tree that starts with a directory. -/
lemma find?_directory {others : SelectionTree} (h : (directory name children others).IsOrdered)
    (other : Text) (names : List Text) :
    find? (other :: names) (directory name children others) =
      if name = other then (if names = [] then some false else find? names children)
      else find? (other :: names) others := by
  by_cases hname : name = other
  · subst hname
    rw [if_pos rfl]
    by_cases hnil : names = []
    · subst hnil
      simp [find?, hasFile, childrenOf?, h.2.2.2.1]
    · rw [if_neg hnil, find?_cons hnil, childrenOf?, if_pos rfl, Option.getD_some]
  · rw [if_neg hname]
    by_cases hnil : names = []
    · subst hnil
      simp only [find?, hasFile, childrenOf?, if_neg hname]
    · rw [find?_cons hnil, find?_cons hnil, childrenOf?, if_neg hname]

/-- What is found in a tree that starts with a file. -/
lemma find?_file (name other : Text) (names : List Text) (others : SelectionTree) :
    find? (other :: names) (file name others) =
      if name = other ∧ names = [] then some true else find? (other :: names) others := by
  by_cases hnil : names = []
  · subst hnil
    by_cases hname : name = other
    · subst hname
      simp [find?, hasFile]
    · simp [find?, hasFile, childrenOf?, hname]
  · rw [if_neg fun hand => hnil hand.2, find?_cons hnil, find?_cons hnil, childrenOf?]

/-- **What leads somewhere** is what names are listed. -/
theorem mem_nodeNames (h : tree.IsOrdered) {l : List Text} {isFile : Bool} :
    (l, isFile) ∈ tree.nodeNames ↔ find? l tree = some isFile := by
  induction tree generalizing l with
  | empty => simp [nodeNames, find?_empty]
  | directory name children others ihchildren ihothers =>
    rw [nodeNames, List.cons_append, List.mem_cons, List.mem_append, List.mem_map,
      ihothers h.2.2.1]
    cases l with
    | nil => simp [find?]
    | cons other l =>
      have hbelow : (∃ p ∈ children.nodeNames, (name :: p.1, p.2) = (other :: l, isFile)) ↔
          name = other ∧ find? l children = some isFile := by
        rw [← ihchildren h.2.1]
        constructor
        · rintro ⟨⟨l', isFile'⟩, hmem, heq⟩
          cases heq
          exact ⟨rfl, hmem⟩
        · rintro ⟨rfl, hmem⟩
          exact ⟨_, hmem, rfl⟩
      rw [hbelow, find?_directory h]
      by_cases hname : name = other
      · subst hname
        rw [h.find?_others_of_directory l, if_pos rfl]
        by_cases hnil : l = []
        · subst hnil
          simp [find?, eq_comm]
        · simp [hnil]
      · simp [hname, Ne.symm hname]
  | file name others ih =>
    rw [nodeNames, List.mem_cons, ih h.2.1]
    cases l with
    | nil => simp [find?]
    | cons other l =>
      rw [find?_file]
      by_cases hself : name = other ∧ l = []
      · obtain ⟨rfl, rfl⟩ := hself
        simp [h.find?_others_of_file, eq_comm]
      · rw [if_neg hself, or_iff_right]
        rintro heq
        cases heq
        exact hself ⟨rfl, rfl⟩

/-- No names are listed twice. -/
theorem nodup_nodeNames (h : tree.IsOrdered) : (tree.nodeNames.map Prod.fst).Nodup := by
  -- what is listed behind a child does not start with its name
  have hapart : ∀ {name : Text} {others : SelectionTree}, others.IsOrdered →
      (∀ names, find? (name :: names) others = none) →
      ∀ names, name :: names ∉ others.nodeNames.map Prod.fst := by
    intro name others hothers hnone names hmem
    obtain ⟨p, hp, heq⟩ := List.mem_map.1 hmem
    have hfind := (mem_nodeNames hothers).1 hp
    rw [heq, hnone names] at hfind
    cases hfind
  induction tree with
  | empty => exact List.nodup_nil
  | directory name children others ihchildren ihothers =>
    have hothers := hapart h.2.2.1 h.find?_others_of_directory
    have hbelow : (children.nodeNames.map fun p => (name :: p.1, p.2)).map Prod.fst =
        (children.nodeNames.map Prod.fst).map (name :: ·) := by
      simp [Function.comp_def]
    rw [nodeNames, List.cons_append, List.map_cons, List.map_append, hbelow, List.nodup_cons,
      List.mem_append, List.nodup_append]
    refine ⟨?_, (ihchildren h.2.1).map fun l m heq => (List.cons.inj heq).2, ihothers h.2.2.1, ?_⟩
    · rintro (hmem | hmem)
      · obtain ⟨l, hl, heq⟩ := List.mem_map.1 hmem
        obtain ⟨p, hp, rfl⟩ := List.mem_map.1 hl
        have hfind := (mem_nodeNames h.2.1).1 hp
        rw [(List.cons.inj heq).2] at hfind
        cases hfind
      · exact hothers [] hmem
    · intro l hl m hm heq
      obtain ⟨names, -, rfl⟩ := List.mem_map.1 hl
      exact hothers names (heq ▸ hm)
  | file name others ih =>
    rw [nodeNames, List.map_cons, List.nodup_cons]
    exact ⟨hapart h.2.1 h.find?_others_of_file [], ih h.2.1⟩

/-- A node is what some names lead to. -/
lemma mem_nodes_iff (h : tree.IsOrdered) {n : Node} :
    n ∈ tree.nodes ↔ ∃ l, find? l tree = some n.isFile ∧ n.path = ofSegments l := by
  rw [nodes_eq h, List.mem_map]
  constructor
  · rintro ⟨⟨l, isFile⟩, hmem, rfl⟩
    exact ⟨l, (mem_nodeNames h).1 hmem, rfl⟩
  · rintro ⟨l, hfind, hpath⟩
    exact ⟨(l, n.isFile), (mem_nodeNames h).2 hfind, by rw [← hpath]⟩

/-- **The views of a tree** list the paths of what leads to a file, or to a directory, each of them
once. -/
theorem listsOnce_nodes (h : tree.IsOrdered) (isFile : Bool) :
    ListsOnce ((tree.nodes.filter fun n => n.isFile == isFile).map Node.path)
      fun l => find? l tree = some isFile := by
  have hlisted : ∀ l, l ∈ (tree.nodeNames.filter fun p => p.2 == isFile).map Prod.fst ↔
      find? l tree = some isFile := by
    intro l
    rw [← mem_nodeNames h]
    simp
  refine listsOnce_map ((nodup_nodeNames h).sublist (List.filter_sublist.map Prod.fst)) hlisted
    (fun l hl => h.areSegments_of_find? (by rw [hl]; rfl)) ?_
  rw [nodes_eq h, List.filter_map, List.map_map, List.map_map]
  rfl

/-- The files of an ordered tree are listed once each. -/
lemma listsOnce_files (h : tree.IsOrdered) :
    ListsOnce tree.files fun l => find? l tree = some true := by
  simpa [files] using listsOnce_nodes h true

/-- The directories of an ordered tree are listed once each. -/
lemma listsOnce_directories (h : tree.IsOrdered) :
    ListsOnce tree.directories fun l => find? l tree = some false := by
  simpa [directories] using listsOnce_nodes h false

end SelectionTree

end GlobPreset
