import Mathlib.Data.List.Infix
import GlobPreset.Proofs.Selection.Additions

/-!
# Drawings of selection trees

The drawing of a tree has one line for each node, in the order in which the nodes are walked. A line
says where its node is: how deep it lies, which of the directories that it is in are last children,
and whether it is one itself. Nothing else is needed to read the tree back.

## Main definitions

* `SelectionTree.standsBefore` — the order of the children of a directory.
* `SelectionTree.isLastChild` — no child of the same directory stands behind a node.
* `SelectionTree.lineOf` — the line of a node among the nodes of a tree.

## Main results

* `SelectionTree.walk_eq_nodes` — walking with a stack visits the nodes in depth-first order.
* `SelectionTree.pairwise_siblings` — the children of a directory are sorted.
* `SelectionTree.childLines_eq` — what is drawn, by names.
* `SelectionTree.lines_render` — **a drawing has one line for each node**.
* `SelectionTree.childLines_injective` — **a drawing is that of one tree**.
* `SelectionTree.render_afterAdding` — both, for the trees of runs of additions.

## Design

A drawing is made by recursion along the tree, with an indent that grows on the way down, and a line
is described by the paths of all nodes. The two meet at the names that lead to a node (`drawn`).
A name may hold anything but a slash and a line feed, also what lines are drawn with: a line is read
from its start, where the directory that it belongs to is known.
-/

set_option autoImplicit false

namespace GlobPreset

open GlobPreset.Path Text

namespace SelectionTree

variable {tree children : SelectionTree} {name : Text}

/-! ### Walking -/

/-- The nodes from a child on. -/
def nodesFrom (path : Text) (child : Child) : List Node :=
  ⟨path, child.isFile⟩ :: nodesBelow path (child.inner.getD empty)

/-- The nodes below a tree are those of its children, one child after another. -/
lemma nodesBelow_eq_flatMap (above : Text) (tree : SelectionTree) :
    nodesBelow above tree =
      tree.sortedChildren.flatMap fun child => nodesFrom (join above child.name) child := by
  induction tree with
  | empty => rfl
  | directory name children others _ ih =>
    rw [nodesBelow, sortedChildren, List.flatMap_cons, ih]
    rfl
  | file name others ih =>
    rw [nodesBelow, sortedChildren, List.flatMap_cons, ih]
    rfl

/-- **What is on a stack is visited from the top**, every child with all that is below it before
what lies under it. -/
lemma visit_eq (stack : List (Text × Child)) (h : ∀ p ∈ stack, p.1 ≠ []) :
    visit stack = stack.flatMap fun p => nodesFrom p.1 p.2 := by
  induction stack using visit.induct with
  | case1 => rw [visit, List.flatMap_nil]
  | case2 path child stack ih =>
    obtain ⟨hpath, hstack⟩ := List.forall_mem_cons.1 h
    have hjoin : ∀ name, join path name = path ++ .of '/' :: name := by
      intro name
      rw [join, if_neg (by simpa using hpath)]
    have hpushed : ∀ p ∈ push (fun name => path ++ .of '/' :: name) child.sortedChildren stack,
        p.1 ≠ [] := by
      intro p hp
      rw [push_eq] at hp
      rcases List.mem_append.1 hp with hp | hp
      · obtain ⟨inner, -, rfl⟩ := List.mem_map.1 hp
        exact List.append_ne_nil_of_left_ne_nil hpath _
      · exact hstack p hp
    have hbelow : nodesBelow path (child.inner.getD empty) =
        child.sortedChildren.flatMap fun inner =>
          nodesFrom (path ++ .of '/' :: inner.name) inner := by
      simp only [nodesBelow_eq_flatMap, hjoin]
      obtain ⟨name, inner⟩ := child
      cases inner <;> rfl
    rw [visit, ih hpushed, push_eq, List.flatMap_append, List.flatMap_cons, List.flatMap_map,
      nodesFrom, hbelow, List.cons_append]

/-- The children of an ordered tree are called by segments. -/
lemma IsOrdered.isSegment_of_mem (h : tree.IsOrdered) {child : Child}
    (hchild : child ∈ tree.sortedChildren) : IsSegment child.name := by
  induction tree with
  | empty => exact absurd hchild List.not_mem_nil
  | directory name children others _ ih =>
    rcases List.mem_cons.1 hchild with rfl | hchild
    · exact h.1
    · exact ih h.2.2.1 hchild
  | file name others ih =>
    rcases List.mem_cons.1 hchild with rfl | hchild
    · exact h.1
    · exact ih h.2.1 hchild

/-- **A walk with a stack** visits the nodes in depth-first order. -/
theorem walk_eq_nodes (h : tree.IsOrdered) : tree.walk = tree.nodes := by
  rw [walk, push_eq, List.append_nil, visit_eq, List.flatMap_map, nodes, nodesBelow_eq_flatMap]
  · rfl
  · intro p hp
    obtain ⟨child, hchild, rfl⟩ := List.mem_map.1 hp
    exact (h.isSegment_of_mem hchild).1

/-! ### Siblings -/

/-- The order of the children of a directory, by name and kind: directories come first, both are in
order of name. -/
def standsBefore (a b : Text × Bool) : Bool := (!a.2 && b.2) || (a.2 == b.2 && Text.le a.1 b.1)

/-- A sibling stands before itself. -/
@[simp] lemma standsBefore_self (a : Text × Bool) : standsBefore a a = true := by
  simp [standsBefore]

/-- Two siblings that stand before each other are the same. -/
lemma standsBefore_antisymm {a b : Text × Bool} (h : standsBefore a b = true)
    (h' : standsBefore b a = true) : a = b := by
  obtain ⟨name, isFile⟩ := a
  obtain ⟨other, otherIsFile⟩ := b
  cases isFile <;> cases otherIsFile <;> simp [standsBefore] at h h' ⊢
  · exact Text.le_antisymm h h'
  · exact Text.le_antisymm h h'

/-- The children of a directory by name and kind. -/
def siblings (tree : SelectionTree) : List (Text × Bool) :=
  tree.sortedChildren.map fun child => (child.name, child.isFile)

/-- A directory in front is the first sibling. -/
lemma siblings_directory (name : Text) (children others : SelectionTree) :
    (directory name children others).siblings = (name, false) :: others.siblings := rfl

/-- A file in front is the first sibling. -/
lemma siblings_file (name : Text) (others : SelectionTree) :
    (file name others).siblings = (name, true) :: others.siblings := rfl

/-- The siblings of a tree are what is found under a single name. -/
lemma mem_siblings (h : tree.IsOrdered) {isFile : Bool} :
    (name, isFile) ∈ tree.siblings ↔ find? [name] tree = some isFile := by
  induction tree with
  | empty => simp [siblings, sortedChildren, find?_empty]
  | directory n inner others _ ih =>
    rw [find?_directory h, siblings_directory, List.mem_cons, ih h.2.2.1]
    by_cases hname : n = name
    · subst hname
      simp [h.find?_others_of_directory, eq_comm]
    · simp [hname, Ne.symm hname]
  | file n others ih =>
    rw [find?_file, siblings_file, List.mem_cons, ih h.2.1]
    by_cases hname : n = name
    · subst hname
      simp [h.find?_others_of_file, eq_comm]
    · simp [hname, Ne.symm hname]

/-- **The children of a directory are sorted**, and their names differ. -/
theorem pairwise_siblings (h : tree.IsOrdered) :
    tree.siblings.Pairwise fun a b => standsBefore a b = true ∧ a.1 ≠ b.1 := by
  induction tree with
  | empty => exact List.Pairwise.nil
  | directory n inner others _ ih =>
    refine List.Pairwise.cons ?_ (ih h.2.2.1)
    rintro ⟨m, isFile⟩ hm
    have hfind := (mem_siblings h.2.2.1).1 hm
    have hne : n ≠ m := by
      rintro rfl
      rw [h.find?_others_of_directory] at hfind
      cases hfind
    refine ⟨?_, hne⟩
    cases isFile with
    | true => rfl
    | false =>
      have hbefore := h.2.2.2.2 m ((IsOrdered.find?_singleton_eq_false_iff h.2.2.1).1 hfind)
      simp [standsBefore, Child.isFile, hbefore.1]
  | file n others ih =>
    refine List.Pairwise.cons ?_ (ih h.2.1)
    rintro ⟨m, isFile⟩ hm
    have hfind := (mem_siblings h.2.1).1 hm
    cases isFile with
    | false =>
      rw [IsOrdered.find?_singleton_eq_false_iff h.2.1, h.2.2.1 m] at hfind
      cases hfind
    | true =>
      have hbefore := h.2.2.2 m (find?_singleton_eq_true_iff.1 hfind)
      exact ⟨by simp [standsBefore, Child.isFile, hbefore.1], hbefore.2⟩

/-- The name is that of the last child. -/
def isLastName (name : Text) (tree : SelectionTree) : Bool :=
  tree.siblings.getLast?.map Prod.fst == some name

/-- **The last child** is the one that all the others stand before. -/
lemma isLastName_iff (h : tree.IsOrdered) {isFile : Bool}
    (hfind : find? [name] tree = some isFile) :
    isLastName name tree = true ↔ ∀ other otherIsFile, find? [other] tree = some otherIsFile →
      standsBefore (other, otherIsFile) (name, isFile) = true := by
  have hmem := (mem_siblings h).2 hfind
  obtain ⟨front, ⟨last, lastIsFile⟩, hsplit⟩ :=
    (List.eq_nil_or_concat' tree.siblings).resolve_left (List.ne_nil_of_mem hmem)
  have hlast : find? [last] tree = some lastIsFile :=
    (mem_siblings h).1 (hsplit ▸ List.mem_append_right front (List.mem_singleton_self _))
  -- all that is not the last child stands before it
  have hbefore : ∀ other otherIsFile, find? [other] tree = some otherIsFile →
      standsBefore (other, otherIsFile) (last, lastIsFile) = true := by
    intro other otherIsFile hother
    have hsorted := pairwise_siblings h
    rw [hsplit, List.pairwise_append] at hsorted
    have hother := (mem_siblings h).2 hother
    rw [hsplit, List.mem_append, List.mem_singleton] at hother
    rcases hother with hother | heq
    · exact (hsorted.2.2 _ hother _ (List.mem_singleton_self _)).1
    · rw [heq, standsBefore_self]
  have hname : isLastName name tree = true ↔ last = name := by
    rw [isLastName, hsplit, List.getLast?_concat]
    simp
  rw [hname]
  constructor
  · rintro rfl
    rw [Option.some.inj (hfind.symm.trans hlast)]
    exact hbefore
  · intro hall
    exact congrArg Prod.fst (standsBefore_antisymm (hall last lastIsFile hlast) (hbefore _ _ hfind))

section First

variable {others : SelectionTree} {first : Text × Bool}

/-- Without siblings there is no tree. -/
lemma siblings_eq_nil_iff : others.siblings = [] ↔ others.isEmpty = true := by
  cases others <;> simp [siblings, sortedChildren, isEmpty]

/-- Behind a first child it counts which of the others is the last one, if there are any. -/
lemma isLastName_eq (hsiblings : tree.siblings = first :: others.siblings) (name : Text) :
    isLastName name tree = if others.isEmpty then first.1 == name else isLastName name others := by
  rw [isLastName, hsiblings]
  split
  · rename_i hempty
    rw [siblings_eq_nil_iff.2 hempty]
    simp
  · rename_i hempty
    rw [List.getLast?_cons_of_ne_nil fun hnil => hempty (siblings_eq_nil_iff.1 hnil), isLastName]

/-- The first child is the last one if there are no others. -/
lemma isLastName_first (hsiblings : tree.siblings = first :: others.siblings)
    (h : others.IsOrdered) (hnone : find? [first.1] others = none) :
    isLastName first.1 tree = others.isEmpty := by
  have hothers : isLastName first.1 others = false := by
    rw [isLastName, beq_eq_false_iff_ne]
    intro hlast
    obtain ⟨⟨name, isFile⟩, hmem, rfl⟩ := Option.map_eq_some_iff.1 hlast
    rw [(mem_siblings h).1 (List.mem_of_getLast? hmem)] at hnone
    cases hnone
  rw [isLastName_eq hsiblings, hothers]
  cases others.isEmpty <;> simp

end First

/-! ### Lines by names -/

/-- What follows a name: a slash behind the name of a directory. -/
def mark (isFile : Bool) : Text := if isFile then [] else [.of '/']

/-- What is drawn for the names that lead to a node, up to the mark behind the last one. -/
def drawn : List Text → SelectionTree → Text
  | [], _ => []
  | [name], tree => connector (isLastName name tree) ++ name
  | name :: next :: names, tree =>
    indentCell (isLastName name tree) ++
      drawn (next :: names) ((tree.childrenOf? name).getD empty)

/-- What is drawn in front of a longer path starts with the cell of its first name. -/
lemma drawn_cons {names : List Text} (hne : names ≠ []) (name : Text) (tree : SelectionTree) :
    drawn (name :: names) tree =
      indentCell (isLastName name tree) ++ drawn names ((tree.childrenOf? name).getD empty) := by
  obtain ⟨next, names, rfl⟩ := List.exists_cons_of_ne_nil hne
  rw [drawn]

/-- A first child in front does not change what is drawn for the others. -/
lemma drawn_others {others : SelectionTree} {first : Text × Bool} {l : List Text}
    (hsiblings : tree.siblings = first :: others.siblings)
    (hbelow : ∀ name, name ≠ first.1 → tree.childrenOf? name = others.childrenOf? name)
    (hnone : ∀ names, find? (first.1 :: names) others = none)
    (hl : (find? l others).isSome = true) : drawn l tree = drawn l others := by
  cases l with
  | nil => rfl
  | cons name names =>
    have hname : name ≠ first.1 := by
      rintro rfl
      rw [hnone names] at hl
      cases hl
    have hempty : others.isEmpty = false := by
      cases others with
      | empty =>
        rw [find?_empty] at hl
        cases hl
      | directory => rfl
      | file => rfl
    have hlast : isLastName name tree = isLastName name others := by
      rw [isLastName_eq hsiblings, hempty]
      rfl
    cases names with
    | nil => rw [drawn, drawn, hlast]
    | cons next names => rw [drawn, drawn, hlast, hbelow name hname]

/-- What is drawn for the others is not changed by a sibling in front of them. -/
lemma map_drawn_others {others : SelectionTree} {first : Text × Bool}
    (hsiblings : tree.siblings = first :: others.siblings)
    (hbelow : ∀ name, name ≠ first.1 → tree.childrenOf? name = others.childrenOf? name)
    (hnone : ∀ names, find? (first.1 :: names) others = none) (h : others.IsOrdered)
    (indent : Text) :
    (others.nodeNames.map fun p => indent ++ drawn p.1 others ++ mark p.2) =
      others.nodeNames.map fun p => indent ++ drawn p.1 tree ++ mark p.2 := by
  refine List.map_congr_left fun p hp => ?_
  have hfind := (mem_nodeNames h).1 hp
  rw [drawn_others hsiblings hbelow hnone (by rw [hfind]; rfl)]

/-- **What is drawn, by names**: a line for everything that names lead to.

**Proof sketch.** Induction on the tree. The first child is the last one if there are no others, and
it changes nothing about these. What is below it has its cell in front, which is the first cell of
what is drawn for its name and those behind it. -/
theorem childLines_eq (h : tree.IsOrdered) (indent : Text) :
    childLines indent tree =
      tree.nodeNames.map fun p => indent ++ drawn p.1 tree ++ mark p.2 := by
  induction tree generalizing indent with
  | empty => rfl
  | directory name children others ihchildren ihothers =>
    have hsiblings := siblings_directory name children others
    have hfirst := isLastName_first hsiblings h.2.2.1 (h.find?_others_of_directory [])
    have hbelow : ∀ p ∈ children.nodeNames,
        indent ++ indentCell others.isEmpty ++ drawn p.1 children ++ mark p.2 =
          indent ++ drawn (name :: p.1) (directory name children others) ++ mark p.2 := by
      rintro ⟨l, isFile⟩ hp
      have hne : l ≠ [] := by
        rintro rfl
        have hfind := (mem_nodeNames h.2.1).1 hp
        cases hfind
      rw [drawn_cons hne, hfirst, childrenOf?, if_pos rfl, Option.getD_some,
        List.append_assoc indent]
    have hothers := map_drawn_others hsiblings
      (fun other hother => by rw [childrenOf?, if_neg (Ne.symm hother)])
      h.find?_others_of_directory h.2.2.1 indent
    rw [childLines, ihchildren h.2.1, ihothers h.2.2.1, hothers, nodeNames, List.cons_append,
      List.map_cons, List.map_append, List.map_map, List.map_congr_left hbelow, drawn, hfirst]
    simp [mark, Function.comp_def]
  | file name others ih =>
    have hsiblings := siblings_file name others
    have hfirst := isLastName_first hsiblings h.2.1 (h.find?_others_of_file [])
    have hothers := map_drawn_others hsiblings (fun other _ => by rw [childrenOf?])
      h.find?_others_of_file h.2.1 indent
    rw [childLines, ih h.2.1, hothers, nodeNames, List.map_cons, drawn, hfirst]
    simp [mark]

/-! ### Lines by paths -/

/-- No child of the same directory stands behind the node. -/
def isLastChild (nodes : List Node) (n : Node) : Bool :=
  nodes.all fun m => parent m.path != parent n.path ||
    standsBefore (baseName m.path, m.isFile) (baseName n.path, n.isFile)

/-- The prefixes of segments that are neither empty nor all of them, from the shortest on. -/
def fronts (segs : List Text) : List (List Text) := segs.inits.tail.dropLast

/-- The directories that a node is in, the outermost first. -/
def Node.above (n : Node) : List Node :=
  (fronts (segments n.path)).map fun front => ⟨ofSegments front, false⟩

/-- The line of a node: a cell for each directory that it is in, the connector, its name, and a
slash if it is a directory. -/
def lineOf (nodes : List Node) (n : Node) : Text :=
  (n.above.map fun d => indentCell (isLastChild nodes d)).flatten ++
    connector (isLastChild nodes n) ++ baseName n.path ++ mark n.isFile

/-- The fronts of a longer path are its first name alone and in front of those of the rest. -/
lemma fronts_cons {l : List Text} (hne : l ≠ []) (s : Text) :
    fronts (s :: l) = [s] :: (fronts l).map (s :: ·) := by
  obtain ⟨t, l, rfl⟩ := List.exists_cons_of_ne_nil hne
  have hinits : (t :: l).inits.tail ≠ [] := by cases l <;> simp
  rw [fronts, List.inits_cons, List.tail_cons, ← List.cons_head_tail (List.ne_nil_of_mem
    ((List.mem_inits [] (t :: l)).2 List.nil_prefix)), List.map_cons,
    List.dropLast_cons_of_ne_nil (by simpa using hinits), ← List.map_dropLast, fronts]
  simp

/-- There are as many fronts as names but the last. -/
lemma length_fronts (l : List Text) : (fronts l).length = l.length - 1 := by
  simp [fronts]

/-- A front is not empty, and something is behind it. -/
lemma exists_append_of_mem_fronts {l front : List Text} (h : front ∈ fronts l) :
    front ≠ [] ∧ ∃ rest, rest ≠ [] ∧ l = front ++ rest := by
  induction l generalizing front with
  | nil => exact absurd h List.not_mem_nil
  | cons s l ih =>
    by_cases hnil : l = []
    · subst hnil
      exact absurd h List.not_mem_nil
    · rw [fronts_cons hnil] at h
      rcases List.mem_cons.1 h with rfl | h
      · exact ⟨List.cons_ne_nil _ _, l, hnil, rfl⟩
      · obtain ⟨front, hfront, rfl⟩ := List.mem_map.1 h
        obtain ⟨-, rest, hrest, rfl⟩ := ih hfront
        exact ⟨List.cons_ne_nil _ _, rest, hrest, rfl⟩

/-- The last of the names is that of the last child where it stands. -/
def lastAt : List Text → SelectionTree → Bool
  | [], _ => false
  | [name], tree => isLastName name tree
  | name :: next :: names, tree => lastAt (next :: names) ((tree.childrenOf? name).getD empty)

/-- A longer path stands last below its first name if the rest does. -/
lemma lastAt_cons {names : List Text} (hne : names ≠ []) (name : Text) (tree : SelectionTree) :
    lastAt (name :: names) tree = lastAt names ((tree.childrenOf? name).getD empty) := by
  obtain ⟨next, names, rfl⟩ := List.exists_cons_of_ne_nil hne
  rw [lastAt]

/-- A line by names has a cell for each directory that the names lead through. -/
lemma drawn_concat (front : List Text) (name : Text) (tree : SelectionTree) :
    drawn (front ++ [name]) tree =
      ((fronts (front ++ [name])).map fun l => indentCell (lastAt l tree)).flatten ++
        connector (lastAt (front ++ [name]) tree) ++ name := by
  induction front generalizing tree with
  | nil => rfl
  | cons first front ih =>
    have hne : front ++ [name] ≠ [] := by simp
    have hcells : (fronts (front ++ [name])).map (fun l => indentCell (lastAt (first :: l) tree)) =
        (fronts (front ++ [name])).map
          fun l => indentCell (lastAt l ((tree.childrenOf? first).getD empty)) :=
      List.map_congr_left fun l hl => by
        rw [lastAt_cons (exists_append_of_mem_fronts hl).1]
    rw [List.cons_append, drawn_cons hne, ih, fronts_cons hne, lastAt_cons hne, List.map_cons,
      List.flatten_cons, List.map_map]
    simp only [Function.comp_def, hcells, List.append_assoc]
    rfl

/-- The names of the last child are those that the names of all its siblings stand before. -/
lemma lastAt_concat_iff {front : List Text} {name : Text} {isFile : Bool} :
    ∀ {tree : SelectionTree}, tree.IsOrdered → find? (front ++ [name]) tree = some isFile →
      (lastAt (front ++ [name]) tree = true ↔
        ∀ other otherIsFile, find? (front ++ [other]) tree = some otherIsFile →
          standsBefore (other, otherIsFile) (name, isFile) = true) := by
  induction front with
  | nil => exact fun h hfind => isLastName_iff h hfind
  | cons first front ih =>
    intro tree h hfind
    have hne : ∀ last : Text, front ++ [last] ≠ [] := by simp
    simp only [List.cons_append, find?_cons (hne _), lastAt_cons (hne _)] at hfind ⊢
    exact ih (h.getD_childrenOf? first) hfind

/-- What names lead through is a directory. -/
lemma IsOrdered.find?_front {front rest : List Text} (hrest : rest ≠ []) :
    ∀ {tree : SelectionTree}, tree.IsOrdered → front ≠ [] →
      (find? (front ++ rest) tree).isSome = true → find? front tree = some false := by
  induction front with
  | nil => exact fun _ hne => absurd rfl hne
  | cons name front ih =>
    intro tree h _ hfind
    rw [List.cons_append, find?_cons (by simp [hrest])] at hfind
    by_cases hnil : front = []
    · subst hnil
      rw [h.find?_singleton_eq_false_iff]
      cases hchildren : tree.childrenOf? name with
      | none =>
        rw [hchildren, Option.getD_none, find?_empty] at hfind
        cases hfind
      | some children => rfl
    · rw [find?_cons hnil]
      exact ih (h.getD_childrenOf? name) hnil hfind

/-- **A last child among the nodes of a tree.** -/
lemma isLastChild_eq (h : tree.IsOrdered) {l : List Text} {isFile : Bool}
    (hfind : find? l tree = some isFile) :
    isLastChild tree.nodes ⟨ofSegments l, isFile⟩ = lastAt l tree := by
  rcases List.eq_nil_or_concat' l with rfl | ⟨front, name, rfl⟩
  · cases hfind
  have hsegments : ∀ {m : List Text}, (find? m tree).isSome = true → AreSegments m :=
    h.areSegments_of_find?
  have hself := hsegments (by rw [hfind]; rfl)
  rw [Bool.eq_iff_iff, lastAt_concat_iff h hfind, isLastChild, List.all_eq_true]
  have hname : .of '/' ∉ name := (hself name (by simp)).2
  simp only [Bool.or_eq_true, bne_iff_ne, ne_eq, parent_ofSegments_concat front hname,
    baseName_ofSegments_concat front hname]
  constructor
  · intro hall other otherIsFile hother
    have hslash : .of '/' ∉ other := (hsegments (by rw [hother]; rfl) other (by simp)).2
    have hbefore := hall ⟨ofSegments (front ++ [other]), otherIsFile⟩
      ((mem_nodes_iff h).2 ⟨_, hother, rfl⟩)
    rw [parent_ofSegments_concat front hslash, baseName_ofSegments_concat front hslash] at hbefore
    exact hbefore.resolve_left fun hne => hne rfl
  · rintro hall ⟨path, otherIsFile⟩ hnode
    obtain ⟨m, hm, rfl⟩ := (mem_nodes_iff h).1 hnode
    rcases List.eq_nil_or_concat' m with rfl | ⟨front', other, rfl⟩
    · cases hm
    have hother := hsegments (by rw [hm]; rfl)
    rw [parent_ofSegments_concat front' (hother other (by simp)).2,
      baseName_ofSegments_concat front' (hother other (by simp)).2]
    by_cases hparent : ofSegments front' = ofSegments front
    · obtain rfl := hother.left.eq_of_ofSegments_eq hself.left hparent
      exact .inr (hall other otherIsFile hm)
    · exact .inl hparent

/-- **The line of a node** is what is drawn for the names that lead to it. -/
lemma lineOf_eq (h : tree.IsOrdered) {l : List Text} {isFile : Bool}
    (hfind : find? l tree = some isFile) :
    lineOf tree.nodes ⟨ofSegments l, isFile⟩ = drawn l tree ++ mark isFile := by
  rcases List.eq_nil_or_concat' l with rfl | ⟨front, name, rfl⟩
  · cases hfind
  have hself : AreSegments (front ++ [name]) := h.areSegments_of_find? (by rw [hfind]; rfl)
  have hcells : ∀ q ∈ fronts (front ++ [name]),
      indentCell (isLastChild tree.nodes ⟨ofSegments q, false⟩) = indentCell (lastAt q tree) := by
    intro q hq
    obtain ⟨hne, rest, hrest, hsplit⟩ := exists_append_of_mem_fronts hq
    rw [isLastChild_eq h (h.find?_front hrest hne (by rw [← hsplit, hfind]; rfl))]
  rw [lineOf, Node.above, hself.segments_ofSegments (by simp), List.map_map,
    isLastChild_eq h hfind, baseName_ofSegments_concat front (hself name (by simp)).2, drawn_concat,
    ← List.map_congr_left hcells]
  rfl

/-! ### Lines of a drawing -/

/-- A connector is four characters long. -/
@[simp] lemma length_connector (isLast : Bool) : (connector isLast).length = 4 := by
  cases isLast <;> rfl

/-- A cell is four characters long. -/
@[simp] lemma length_indentCell (isLast : Bool) : (indentCell isLast).length = 4 := by
  cases isLast <;> rfl

/-- The connectors are different. -/
lemma connector_injective : ∀ {isLast isLast' : Bool},
    connector isLast = connector isLast' → isLast = isLast' := by decide

/-- No cell of an indent is a connector. -/
lemma indentCell_ne_connector : ∀ isLast isLast' : Bool,
    indentCell isLast ≠ connector isLast' := by decide

/-- There is no line feed in a connector. -/
lemma feed_not_mem_connector (isLast : Bool) : .of '\n' ∉ connector isLast := by
  cases isLast <;> decide

/-- There is no line feed in a cell of an indent. -/
lemma feed_not_mem_indentCell (isLast : Bool) : .of '\n' ∉ indentCell isLast := by
  cases isLast <;> decide

/-- There is no line feed in what is drawn, if the names have none. -/
lemma feed_not_mem_drawn {l : List Text} (h : ∀ s ∈ l, .of '\n' ∉ s) (tree : SelectionTree) :
    .of '\n' ∉ drawn l tree := by
  induction l generalizing tree with
  | nil => exact List.not_mem_nil
  | cons name names ih =>
    obtain ⟨hname, hnames⟩ := List.forall_mem_cons.1 h
    by_cases hnil : names = []
    · subst hnil
      rw [drawn, List.mem_append]
      exact not_or.2 ⟨feed_not_mem_connector _, hname⟩
    · rw [drawn_cons hnil, List.mem_append]
      exact not_or.2 ⟨feed_not_mem_indentCell _, ih hnames _⟩

/-- No name of a tree holds a line feed. -/
def IsOneLine (tree : SelectionTree) : Prop :=
  ∀ l, (find? l tree).isSome = true → ∀ s ∈ l, .of '\n' ∉ s

/-- A drawing is cut into the lines that it was made of. -/
lemma splitOn_render (h : tree.IsOrdered) (hnames : tree.IsOneLine) {rootName : Text}
    (hroot : .of '\n' ∉ rootName) :
    splitOn (.of '\n') (tree.render rootName) =
      (dropEndSlashes rootName ++ [.of '/']) :: childLines [] tree := by
  refine splitOn_joinWith (.of '\n') (List.cons_ne_nil _ _) (List.forall_mem_cons.2 ⟨?_, ?_⟩)
  · rw [List.mem_append]
    rintro (hfeed | hfeed)
    · rw [dropEndSlashes, dropEndWhile_eq_rdropWhile] at hfeed
      exact hroot ((List.rdropWhile_prefix _ _).subset hfeed)
    · exact absurd hfeed (by decide)
  · intro line hline
    rw [childLines_eq h] at hline
    obtain ⟨⟨l, isFile⟩, hmem, rfl⟩ := List.mem_map.1 hline
    have hdrawn := feed_not_mem_drawn
      (hnames l (by rw [(mem_nodeNames h).1 hmem]; rfl)) tree
    have hmark : .of '\n' ∉ mark isFile := by cases isFile <;> decide
    rw [List.nil_append, List.mem_append]
    exact not_or.2 ⟨hdrawn, hmark⟩

/-- **A drawing has one line for each node**, below the line of the root. -/
theorem lines_render (h : tree.IsOrdered) (hnames : tree.IsOneLine) {rootName : Text}
    (hroot : .of '\n' ∉ rootName) :
    splitOn (.of '\n') (tree.render rootName) =
      (dropEndSlashes rootName ++ [.of '/']) :: tree.nodes.map (lineOf tree.nodes) := by
  have hlines : ∀ p ∈ tree.nodeNames,
      [] ++ drawn p.1 tree ++ mark p.2 = lineOf tree.nodes ⟨ofSegments p.1, p.2⟩ := by
    rintro ⟨l, isFile⟩ hp
    rw [lineOf_eq h ((mem_nodeNames h).1 hp), List.nil_append]
  have hnodes := congrArg (List.map (lineOf tree.nodes)) (nodes_eq h)
  rw [List.map_map] at hnodes
  rw [splitOn_render h hnames hroot, childLines_eq h, List.map_congr_left hlines, hnodes]
  rfl

/-! ### Reading a drawing -/

/-- Lists that are cut where a property ends are cut at one place. -/
lemma append_inj_of_head {α : Type} {P : α → Prop} {l l' m m' : List α} (h : l ++ m = l' ++ m')
    (hl : ∀ x ∈ l, P x) (hl' : ∀ x ∈ l', P x) (hm : ∀ x ∈ m.head?, ¬ P x)
    (hm' : ∀ x ∈ m'.head?, ¬ P x) : l = l' ∧ m = m' := by
  rcases List.append_eq_append_iff.1 h with ⟨between, rfl, rfl⟩ | ⟨between, rfl, rfl⟩
  · cases between with
    | nil => exact ⟨(List.append_nil l).symm, rfl⟩
    | cons x between => exact absurd (hl' x (by simp)) (hm x rfl)
  · cases between with
    | nil => exact ⟨List.append_nil l', rfl⟩
    | cons x between => exact absurd (hl x (by simp)) (hm' x rfl)

/-- What follows a connector, and the connector, are read off a line. -/
lemma line_inj {indent s t : Text} {isLast isLast' : Bool}
    (h : indent ++ connector isLast ++ s = indent ++ connector isLast' ++ t) :
    isLast = isLast' ∧ s = t := by
  rw [List.append_assoc, List.append_assoc] at h
  obtain ⟨hconnector, hrest⟩ := List.append_inj (List.append_cancel_left h) (by simp)
  exact ⟨connector_injective hconnector, hrest⟩

/-- Every line of a directory starts with the indent. -/
lemma indent_prefix_of_mem_childLines {indent line : Text} (h : line ∈ childLines indent tree) :
    indent <+: line := by
  induction tree generalizing indent with
  | empty => exact absurd h List.not_mem_nil
  | directory name children others ihchildren ihothers =>
    rw [childLines, List.mem_cons, List.mem_append] at h
    rcases h with rfl | h | h
    · exact ⟨connector others.isEmpty ++ name ++ [.of '/'], by simp⟩
    · exact (List.prefix_append indent _).trans (ihchildren h)
    · exact ihothers h
  | file name others ih =>
    rcases List.mem_cons.1 h with rfl | h
    · exact ⟨connector others.isEmpty ++ name, by simp⟩
    · exact ih h

/-- The first line of a directory goes on with a connector, so it does not belong to what is drawn
below a child. -/
lemma not_prefix_of_head_childLines {indent line : Text} {isLast : Bool}
    (h : line ∈ (childLines indent tree).head?) : ¬ indent ++ indentCell isLast <+: line := by
  have hline : ∃ isLast' rest, line = indent ++ (connector isLast' ++ rest) := by
    cases tree with
    | empty => cases h
    | directory name children others =>
      cases h
      exact ⟨others.isEmpty, name ++ [.of '/'], by simp⟩
    | file name others =>
      cases h
      exact ⟨others.isEmpty, name, by simp⟩
  obtain ⟨isLast', rest, rfl⟩ := hline
  rintro ⟨behind, heq⟩
  rw [List.append_assoc] at heq
  have hcell := (List.append_inj (List.append_cancel_left heq) (by simp)).1
  exact indentCell_ne_connector isLast isLast' hcell

/-- What is drawn for a directory is not drawn for a file. -/
lemma not_isSegment_concat_slash (name : Text) : ¬ IsSegment (name ++ [.of '/']) :=
  fun h => h.2 (List.mem_append_right name (List.mem_singleton_self (CodePoint.of '/')))

/-- **A drawing is that of one tree.**

**Proof sketch.** Induction on the tree. The first line gives the name and the kind of the first
child, and its connector whether there are others. The lines below it are those that start with its
cell, up to the first one that does not. -/
theorem childLines_injective {tree' : SelectionTree} {indent : Text} (h : tree.IsOrdered)
    (h' : tree'.IsOrdered) (heq : childLines indent tree = childLines indent tree') :
    tree = tree' := by
  induction tree generalizing tree' indent with
  | empty =>
    cases tree' with
    | empty => rfl
    | directory => cases heq
    | file => cases heq
  | directory name children others ihchildren ihothers =>
    cases tree' with
    | empty => cases heq
    | directory name' children' others' =>
      obtain ⟨hfirst, hrest⟩ := List.cons.inj heq
      rw [List.append_assoc _ name, List.append_assoc _ name'] at hfirst
      obtain ⟨hlast, hname⟩ := line_inj hfirst
      obtain rfl := List.append_cancel_right hname
      rw [hlast] at hrest
      obtain ⟨hchildren, hothers⟩ := append_inj_of_head hrest
        (fun line hline => indent_prefix_of_mem_childLines hline)
        (fun line hline => indent_prefix_of_mem_childLines hline)
        (fun line hline => not_prefix_of_head_childLines hline)
        (fun line hline => not_prefix_of_head_childLines hline)
      rw [ihchildren h.2.1 h'.2.1 hchildren, ihothers h.2.2.1 h'.2.2.1 hothers]
    | file name' others' =>
      obtain ⟨hfirst, -⟩ := List.cons.inj heq
      rw [List.append_assoc _ name] at hfirst
      have hname : name ++ [.of '/'] = name' := (line_inj hfirst).2
      exact absurd (hname ▸ h'.1) (not_isSegment_concat_slash name)
  | file name others ih =>
    cases tree' with
    | empty => cases heq
    | directory name' children' others' =>
      obtain ⟨hfirst, -⟩ := List.cons.inj heq
      rw [List.append_assoc _ name'] at hfirst
      have hname : name = name' ++ [.of '/'] := (line_inj hfirst).2
      exact absurd (hname ▸ h.1) (not_isSegment_concat_slash name')
    | file name' others' =>
      obtain ⟨hfirst, hothers⟩ := List.cons.inj heq
      obtain ⟨-, rfl⟩ := line_inj hfirst
      rw [ih h.2.1 h'.2.1 hothers]

/-! ### Runs of additions -/

/-- Paths without line feeds make a tree that is drawn with one line for each node. -/
lemma isOneLine_afterAdding {paths : List Text} (h : ∀ p ∈ paths, .of '\n' ∉ p) :
    (afterAdding paths).IsOneLine := by
  intro l hfind s hs hfeed
  obtain ⟨rest, htaken⟩ := (holds_afterAdding paths).exists_taken hfind
  obtain ⟨path, hpath, heq⟩ := htaken.exists_path
  have hmem : s ∈ names path := heq ▸ List.mem_append_left rest hs
  exact h path hpath (mem_of_mem_splitOn (List.mem_filter.1 hmem).1 hfeed)

/-- **The drawing of a tree that was built by additions** has one line for each node, in the order
in which they are walked, below the line of the root; the line has a cell of four characters for
each directory that the node is in, and trees that are drawn alike have the same files. -/
theorem render_afterAdding {paths : List Text} (hpaths : ∀ p ∈ paths, .of '\n' ∉ p)
    {rootName : Text} (hroot : .of '\n' ∉ rootName) :
    splitOn (.of '\n') ((afterAdding paths).render rootName) =
        (dropEndSlashes rootName ++ [.of '/']) ::
          (afterAdding paths).walk.map (lineOf (afterAdding paths).walk) ∧
      (∀ n : Node, n.above.length = (segments n.path).length - 1) ∧
      (∀ isLast, (indentCell isLast).length = 4) ∧
      ∀ (paths' : List Text) (rootName' : Text), (∀ p ∈ paths', .of '\n' ∉ p) →
        .of '\n' ∉ rootName' →
        (afterAdding paths').render rootName' = (afterAdding paths).render rootName →
        (afterAdding paths').files = (afterAdding paths).files := by
  have hordered := fun paths => (holds_afterAdding paths).ordered
  refine ⟨?_, fun n => ?_, length_indentCell, fun paths' rootName' hpaths' hroot' heq => ?_⟩
  · rw [walk_eq_nodes (hordered paths)]
    exact lines_render (hordered paths) (isOneLine_afterAdding hpaths) hroot
  · rw [Node.above, List.length_map, length_fronts]
  · have hlines := congrArg (splitOn (.of '\n')) heq
    rw [splitOn_render (hordered paths') (isOneLine_afterAdding hpaths') hroot',
      splitOn_render (hordered paths) (isOneLine_afterAdding hpaths) hroot] at hlines
    rw [childLines_injective (hordered paths') (hordered paths) (List.cons.inj hlines).2]

/-- A directory and a file whose names are what lines are drawn with, and a directory beside them.
-/
def drawnNames : List Text := ["│   /└── x".toText, "a/b".toText, "│   └── x".toText]

/-- The lines of their drawing. -/
def drawnLines : List Text :=
  ["├── a/", "│   └── b", "├── │   /", "│   └── └── x", "└── │   └── x"].map String.toText

/-- The order in which they are added does not change the drawing, so it does not change the files.
-/
theorem render_afterAdding_drawnNames :
    splitOn (.of '\n') ((afterAdding drawnNames).render ".".toText) = "./".toText :: drawnLines ∧
      (afterAdding drawnNames).walk.map (lineOf (afterAdding drawnNames).walk) = drawnLines ∧
      (afterAdding drawnNames.reverse).files = (afterAdding drawnNames).files := by
  have hpaths : ∀ p ∈ drawnNames, .of '\n' ∉ p := by decide
  have hroot : .of '\n' ∉ ".".toText := by decide
  obtain ⟨hlines, -, -, hfiles⟩ := render_afterAdding hpaths hroot
  have hdrawing : splitOn (.of '\n') ((afterAdding drawnNames).render ".".toText) =
      "./".toText :: drawnLines := by decide +kernel
  exact ⟨hdrawing, (List.cons.inj (hlines.symm.trans hdrawing)).2,
    hfiles drawnNames.reverse ".".toText (by decide) hroot (by decide +kernel)⟩

end SelectionTree

end GlobPreset
