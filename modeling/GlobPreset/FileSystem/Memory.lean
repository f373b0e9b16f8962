import GlobPreset.FileSystem.Basic
import GlobPreset.Path.Location

/-!
# Trees in memory

A file system that is a value: regular files with their content, directories, links, entries of
other kinds, and directories that refuse to be listed.

## Main definitions

* `MemoryTree` — the entries, each at its location.
* `MemoryTree.empty`, `MemoryTree.addFile`, `MemoryTree.addDirectory`, `MemoryTree.addLink`,
  `MemoryTree.addSpecial`, `MemoryTree.makeUnreadable` — making a tree.
* `MemoryTree.realNames` — the resolution of links.
* `MemoryTree.fileSystem` — the answers of a tree.

## Design

Resolution goes through a path name by name from the root. At a link it puts the target in place
of the names passed so far, normalizes the text, and starts again; at most `maxLinks` links are
followed. So the steps are a recursion on the links left, and inside of it on the names to come.
-/

set_option autoImplicit false

namespace GlobPreset

/-- A file system in memory. -/
structure MemoryTree where
  /-- Where relative paths start. -/
  root : Location
  /-- The regular files and their content. -/
  files : List (Location × Text)
  /-- The directories. -/
  directories : List Location
  /-- The links and their targets. -/
  links : List (Location × Text)
  /-- The entries of other kinds. -/
  specials : List Location
  /-- The directories that refuse to be listed. -/
  unreadable : List Location
deriving DecidableEq, Repr

namespace MemoryTree

/-! ### Making a tree -/

/-- Adds a member unless it is there. -/
def addMember (l : Location) (members : List Location) : List Location :=
  if members.contains l then members else members ++ [l]

/-- Gives a location a value in place of an earlier one. -/
def setValue (l : Location) (value : Text) : List (Location × Text) → List (Location × Text)
  | [] => [(l, value)]
  | (k, v) :: rest => if k = l then (l, value) :: rest else (k, v) :: setValue l value rest

/-- A location and all locations that contain it. -/
def lineage (l : Location) : List Location :=
  (List.range (l.segments.length + 1)).map (fun n => ⟨l.anchor, l.segments.take n⟩)

/-- Adds a directory and all directories that contain it. -/
def makeDirectories (t : MemoryTree) (l : Location) : MemoryTree :=
  { t with directories := (lineage l).foldl (fun ds d => addMember d ds) t.directories }

/-- The tree that has its root directory alone. -/
def empty (root : Text) : MemoryTree :=
  makeDirectories ⟨.ofText root, [], [.top], [], [], []⟩ (.ofText root)

/-- The location of a path; a relative one starts at the root of the tree. -/
def locate (t : MemoryTree) (path : Text) : Location :=
  if path.head? = some (.of '/') then .ofText path
  else .ofText (Location.joinSegment t.root.toText path)

/-- Adds a file. -/
def addFile (t : MemoryTree) (path content : Text) : MemoryTree :=
  let l := t.locate path
  let t := t.makeDirectories l.parent
  { t with files := setValue l content t.files }

/-- Adds a directory. -/
def addDirectory (t : MemoryTree) (path : Text) : MemoryTree := t.makeDirectories (t.locate path)

/-- Adds a link. -/
def addLink (t : MemoryTree) (path target : Text) : MemoryTree :=
  let l := t.locate path
  let t := t.makeDirectories l.parent
  { t with links := setValue l target t.links }

/-- Adds an entry of another kind. -/
def addSpecial (t : MemoryTree) (path : Text) : MemoryTree :=
  let l := t.locate path
  let t := t.makeDirectories l.parent
  { t with specials := addMember l t.specials }

/-- Makes a directory refuse to be listed. -/
def makeUnreadable (t : MemoryTree) (path : Text) : MemoryTree :=
  let l := t.locate path
  let t := t.makeDirectories l
  { t with unreadable := addMember l t.unreadable }

/-! ### Resolving links -/

/-- The number of links that one resolution follows. -/
def maxLinks : Nat := 40

/-- Where a way through names without links ends. -/
inductive Passage where
  /-- All names are passed. -/
  | arrived (names : List Text)
  /-- A link is met: the names up to it, those of its directory, its target, and what is to come. -/
  | atLink (link directory : List Text) (target : Text) (pending : List Text)
deriving DecidableEq, Repr

/-- Goes from a directory through names until a link is met. -/
def pass (t : MemoryTree) (current : List Text) : List Text → Passage
  | [] => .arrived current
  | name :: pending =>
    let next := if name = [.of '.', .of '.'] then current.dropLast else current ++ [name]
    match lookup? (Location.below next) t.links with
    | none => pass t next pending
    | some target => .atLink next current target pending

/-- The names that the target of a link leads to, as a text behind its directory. -/
def targetNames (directory : List Text) (target : Text) : List Text :=
  (Location.ofText (Location.joinSegment (Location.below directory).toText target)).segments

/-- Resolves names from the root and follows at most `links` links; one more is left as it is. -/
def resolve (t : MemoryTree) : (links : Nat) → List Text → List Text
  | 0, names =>
    match t.pass [] names with
    | .arrived real => real
    | .atLink link _ _ pending => link ++ pending
  | links + 1, names =>
    match t.pass [] names with
    | .arrived real => real
    | .atLink _ directory target pending =>
      resolve t links (targetNames directory target ++ pending)

/-- The names of a location behind the root; of a relative one, the first does not count. -/
def namesOf (l : Location) : List Text :=
  match l.anchor with
  | .relative => l.segments.drop 1
  | _ => l.segments

/-- The names that are left of a path when every link is resolved. -/
def realNames (t : MemoryTree) (path : Text) : List Text :=
  t.resolve maxLinks (namesOf (t.locate path))

/-- The location that is left of a path when every link is resolved. -/
def realLocation (t : MemoryTree) (path : Text) : Location := .below (t.realNames path)

/-! ### Answers -/

/-- What is at a location. -/
def kindAt? (t : MemoryTree) (l : Location) : Option NodeKind :=
  if (lookup? l t.files).isSome then some .file
  else if t.directories.contains l then some .directory
  else if t.specials.contains l then some .other
  else none

/-- What a path leads to. -/
def kind? (t : MemoryTree) (path : Text) : Option NodeKind := t.kindAt? (t.realLocation path)

/-- The location is a link. -/
def isLink (t : MemoryTree) (l : Location) : Bool := (lookup? l t.links).isSome

/-- All locations with an entry. -/
def locations (t : MemoryTree) : List Location :=
  t.files.map Prod.fst ++ t.directories ++ t.links.map Prod.fst ++ t.specials

/-- The name of a location directly inside a directory. -/
def childName? (directory l : Location) : Option Text :=
  if l.anchor = directory.anchor ∧ l.segments.dropLast = directory.segments then
    l.segments.getLast?
  else none

/-- The names directly inside a directory, in order. -/
def childNames (t : MemoryTree) (directory : Location) : List Text :=
  Text.sort (dedupe (t.locations.filterMap (childName? directory)))

/-- The entry of a name inside a directory that was asked for as `asked`. -/
def entry (t : MemoryTree) (asked directory : Location) (name : Text) : Entry where
  path := Location.joinSegment asked.toText name
  name := name
  kind := (t.kind? (Location.joinSegment directory.toText name)).getD .other
  isLink := t.isLink ⟨directory.anchor, directory.segments ++ [name]⟩

/-- The entries of a directory, in order of name. -/
def list (t : MemoryTree) (path : Text) : Except FileError (List Entry) :=
  let asked := t.locate path
  let real := t.realLocation asked.toText
  if t.unreadable.contains real then .error (.denied asked.toText)
  else if t.directories.contains real then .ok ((t.childNames real).map (t.entry asked real))
  else if (t.kind? asked.toText).isNone then .error (.missingDirectory asked.toText)
  else .error (.notDirectory asked.toText)

/-- The content of the file that a path leads to. -/
def read (t : MemoryTree) (path : Text) : Except FileError Text :=
  let real := t.realLocation (t.locate path).toText
  match lookup? real t.files with
  | some content => .ok content
  | none => .error (.noContent real.toText)

/-- The answers of a tree. -/
def fileSystem (t : MemoryTree) : FileSystem where
  list := t.list
  realPath path := (t.realLocation path).toText
  refusal? _ := none
  kind? := t.kind?
  depthBound := t.directories.length + 1

end MemoryTree

end GlobPreset
