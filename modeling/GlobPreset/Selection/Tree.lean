import GlobPreset.Path.Basic
import GlobPreset.Text.Quoted

/-!
# Selection trees

The files of a selection as a tree. A name stands for a file or for a directory, never for both,
and an addition that would break this is refused and leaves the tree as it is.

## Main definitions

* `SelectionTree` — the children of one directory: directories, then files, each in order of name.
* `SelectionTree.insert` — adds a path; `SelectionTree.add` — adds it in place.
* `SelectionTree.nodes` — every node with its path, in depth-first order; `SelectionTree.walk` — the
  same with a stack.
* `SelectionTree.files`, `SelectionTree.directories`, `SelectionTree.deepestFirst` — its views.
* `SelectionTree.render` — the drawing of a tree.
-/

set_option autoImplicit false

namespace GlobPreset

/-- The children of one directory. -/
inductive SelectionTree where
  | empty
  | directory (name : Text) (children others : SelectionTree)
  | file (name : Text) (others : SelectionTree)
deriving DecidableEq, Repr

/-- A path that a tree refuses. -/
structure TreeConflict where
  /-- The refused path. -/
  path : Text
  /-- The file that stands where the path needs a directory; `none` if the path itself is a
  directory. -/
  blocking : Option Text
deriving DecidableEq, Repr

/-- The wording of a conflict. -/
def TreeConflict.message (e : TreeConflict) : Text :=
  Text.quote e.path ++
    (match e.blocking with
      | some name => ": ".toText ++ Text.quote name
      | none => []) ++ " is both a file and a directory".toText

namespace SelectionTree

open Text

/-! ### Additions -/

/-- Some file has the name. -/
def hasFile (name : Text) : SelectionTree → Bool
  | empty => false
  | directory _ _ others => hasFile name others
  | file n others => n == name || hasFile name others

/-- The children of the directory of that name. -/
def childrenOf? (name : Text) : SelectionTree → Option SelectionTree
  | empty => none
  | directory n children others => if n = name then some children else childrenOf? name others
  | file _ others => childrenOf? name others

/-- Puts a directory at its place; one of the same name is replaced. -/
def putDirectory (name : Text) (children : SelectionTree) : SelectionTree → SelectionTree
  | directory n c others =>
    if n = name then directory name children others
    else if Text.le name n then directory name children (directory n c others)
    else directory n c (putDirectory name children others)
  | tree => directory name children tree

/-- Puts a file at its place; one of the same name stays. -/
def putFile (name : Text) : SelectionTree → SelectionTree
  | empty => file name empty
  | directory n c others => directory n c (putFile name others)
  | file n others =>
    if n = name then file n others
    else if Text.le name n then file name (file n others)
    else file n (putFile name others)

/-- Adds the file that the names lead to; a refusal names the blocking file, if there is one. -/
def insertNames : List Text → SelectionTree → Except (Option Text) SelectionTree
  | [], tree => .ok tree
  | [name], tree =>
    match childrenOf? name tree with
    | some _ => .error none
    | none => .ok (putFile name tree)
  | name :: next :: names, tree =>
    if hasFile name tree then .error (some name)
    else do
      let children ← insertNames (next :: names) ((childrenOf? name tree).getD empty)
      return putDirectory name children tree

/-- Adds a path; empty segments do not count. -/
def insert (tree : SelectionTree) (path : Text) : Except TreeConflict SelectionTree :=
  match insertNames (Path.names path) tree with
  | .ok tree => .ok tree
  | .error blocking => .error ⟨path, blocking⟩

/-- What an attempt to add a path in place leaves behind. -/
structure Attempt where
  /-- The tree after the attempt. -/
  tree : SelectionTree
  /-- The refusal; `none` if the path was added. -/
  refusal : Option TreeConflict
deriving DecidableEq, Repr

/-- Adds the file that the names lead to in place. A directory that is missing on the way is put
into the tree before anything below it is looked at, and stays there if the names are refused
further down. -/
def addNames : List Text → SelectionTree → SelectionTree × Option (Option Text)
  | [], tree => (tree, none)
  | [name], tree =>
    match childrenOf? name tree with
    | some _ => (tree, some none)
    | none => (putFile name tree, none)
  | name :: next :: names, tree =>
    if hasFile name tree then (tree, some (some name))
    else
      let below := addNames (next :: names) ((childrenOf? name tree).getD empty)
      (putDirectory name below.1 tree, below.2)

/-- Adds a path in place; empty segments do not count. -/
def add (tree : SelectionTree) (path : Text) : Attempt :=
  let result := addNames (Path.names path) tree
  ⟨result.1, result.2.map fun blocking => ⟨path, blocking⟩⟩

/-- The tree of some paths. -/
def ofPaths (paths : List Text) : Except TreeConflict SelectionTree :=
  paths.foldlM insert empty

/-! ### Views -/

/-- A node of a tree. -/
structure Node where
  /-- The path of the node. -/
  path : Text
  /-- The node is a file. -/
  isFile : Bool
deriving DecidableEq, Repr

/-- The nodes below a directory, depth first. -/
def nodesBelow (above : Text) : SelectionTree → List Node
  | empty => []
  | directory name children others =>
    ⟨Path.join above name, false⟩ ::
      (nodesBelow (Path.join above name) children ++ nodesBelow above others)
  | file name others => ⟨Path.join above name, true⟩ :: nodesBelow above others

/-- All nodes, depth first. -/
def nodes (tree : SelectionTree) : List Node := nodesBelow [] tree

/-- A child of a directory. -/
structure Child where
  name : Text
  /-- Its own children; `none` for a file. -/
  inner : Option SelectionTree
deriving DecidableEq, Repr

/-- The children of a directory, directories first, both in order of name. -/
def sortedChildren : SelectionTree → List Child
  | empty => []
  | directory name children others => ⟨name, some children⟩ :: sortedChildren others
  | file name others => ⟨name, none⟩ :: sortedChildren others

namespace Child

/-- The child is a file. -/
def isFile (child : Child) : Bool := child.inner.isNone

/-- The children of a child; a file has none. -/
def sortedChildren (child : Child) : List Child :=
  match child.inner with
  | some children => children.sortedChildren
  | none => []

end Child

/-- The number of nodes. -/
def size : SelectionTree → Nat
  | empty => 0
  | directory _ children others => size children + 1 + size others
  | file _ others => size others + 1

/-- The number of nodes from a child on. -/
def Child.size (child : Child) : Nat := (child.inner.elim 0 SelectionTree.size) + 1

/-- Pushes children with their paths onto a stack, the last one first. -/
def push (pathOf : Text → Text) (children : List Child) (stack : List (Text × Child)) :
    List (Text × Child) :=
  children.reverse.foldl (fun stack child => (pathOf child.name, child) :: stack) stack

/-- The first child comes to lie on top. -/
theorem push_eq (pathOf : Text → Text) (children : List Child) (stack : List (Text × Child)) :
    push pathOf children stack =
      children.map (fun child => (pathOf child.name, child)) ++ stack := by
  rw [push, List.foldl_reverse]
  induction children with
  | nil => rfl
  | cons child children ih => rw [List.foldr_cons, ih, List.map_cons, List.cons_append]

/-- The number of nodes on a stack and below it. -/
def stackSize : List (Text × Child) → Nat
  | [] => 0
  | p :: stack => p.2.size + stackSize stack

/-- Pushing the children of a tree adds the size of the tree to the stack. -/
theorem stackSize_push (pathOf : Text → Text) (tree : SelectionTree) (stack : List (Text × Child)) :
    stackSize (push pathOf tree.sortedChildren stack) = tree.size + stackSize stack := by
  rw [push_eq]
  induction tree with
  | empty => simp only [sortedChildren, size, List.map_nil, List.nil_append, Nat.zero_add]
  | directory name children others _ ih =>
    simp only [sortedChildren, size, List.map_cons, List.cons_append, stackSize, ih, Child.size,
      Option.elim]
    omega
  | file name others ih =>
    simp only [sortedChildren, size, List.map_cons, List.cons_append, stackSize, ih, Child.size,
      Option.elim]
    omega

/-- Pushing the children of a child adds less than the size of the child. -/
theorem stackSize_push_lt (pathOf : Text → Text) (child : Child) (stack : List (Text × Child)) :
    stackSize (push pathOf child.sortedChildren stack) < child.size + stackSize stack := by
  obtain ⟨name, inner⟩ := child
  cases inner with
  | none =>
    have hpush := stackSize_push pathOf empty stack
    simp only [size, sortedChildren] at hpush
    simp only [Child.sortedChildren, Child.size, hpush, Option.elim]
    omega
  | some children =>
    simp only [Child.sortedChildren, Child.size, stackSize_push, Option.elim]
    omega

/-- The nodes on a stack and below it: the one on top, then its children, then what lies under it.
-/
def visit (stack : List (Text × Child)) : List Node :=
  match stack with
  | [] => []
  | (path, child) :: stack =>
    ⟨path, child.isFile⟩ ::
      visit (push (fun name => path ++ .of '/' :: name) child.sortedChildren stack)
termination_by stackSize stack
decreasing_by
  exact stackSize_push_lt _ child stack

/-- All nodes, depth first, with a stack. -/
def walk (tree : SelectionTree) : List Node := visit (push id tree.sortedChildren [])

/-- The paths of the files. -/
def files (tree : SelectionTree) : List Text :=
  (tree.nodes.filter (fun n => n.isFile)).map (fun n => n.path)

/-- The paths of the directories. -/
def directories (tree : SelectionTree) : List Text :=
  (tree.nodes.filter (fun n => !n.isFile)).map (fun n => n.path)

/-- The paths of the directories, every one before the directories that contain it. -/
def deepestFirst (tree : SelectionTree) : List Text := sortBy Path.deeperFirst tree.directories

/-! ### Drawing -/

/-- There is no further child. -/
def isEmpty : SelectionTree → Bool
  | empty => true
  | _ => false

/-- What stands before the name of a child. -/
def connector (isLast : Bool) : Text := if isLast then "└── ".toText else "├── ".toText

/-- What the descendants of a child are indented by. -/
def indentCell (isLast : Bool) : Text := if isLast then "    ".toText else "│   ".toText

/-- The lines of the children of one directory. -/
def childLines (indent : Text) : SelectionTree → List Text
  | empty => []
  | directory name children others =>
    (indent ++ connector others.isEmpty ++ name ++ [.of '/']) ::
      (childLines (indent ++ indentCell others.isEmpty) children ++ childLines indent others)
  | file name others => (indent ++ connector others.isEmpty ++ name) :: childLines indent others

/-- The drawing of a tree below the name of its root. -/
def render (tree : SelectionTree) (rootName : Text) : Text :=
  joinWith [.of '\n'] ((Path.dropEndSlashes rootName ++ [.of '/']) :: childLines [] tree)

end SelectionTree

end GlobPreset
