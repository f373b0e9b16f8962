import GlobPreset.FileSystem.Basic
import GlobPreset.Path.Location

/-!
# Disks

A file system as an operating system of the POSIX family keeps it, whose requests follow links and
fail with the errors of such a system, and whose entries change.

## Main definitions

* `Disk` — the entries, each at its names from the root, and how long names may be.
* `Disk.find` — what a path leads to, links being followed.
* `Disk.probe` — the kind of what a path leads to, if to anything.
* `Disk.realPath?` — the path that is left when every link is resolved, as far as that is possible.
* `Disk.resolve` — the same for a path whose links do not lead in a circle.
* `Disk.list`, `Disk.read`, `Disk.write`, `Disk.writeText`, `Disk.makeDirectory`,
  `Disk.makeDirectories`, `Disk.unlink` — the requests.
* `Disk.fileSystem` — the answers of a disk.

## Design

Finding an entry follows at most `maxLinks` links in all. Resolving a path has no such limit:
it remembers the links that it is inside of, and gives up when it meets one of them again.

Names and contents are texts as the system hands them over: a byte that is not UTF-8 is a surrogate
that stands for it. A path with another surrogate is taken by no request. A content is read and
written as UTF-8 proper: reading fails on any surrogate, and writing too, but only after the file
was opened and so made or emptied. Two texts name two entries. For a text whose surrogates stand for
the bytes of a scalar value this is not so on a real system, which never hands over such a text.

Most questions about a path take every error for a no. The exception is `probe`, for which only a
missing entry, a file on the way and links that lead nowhere are a no.
-/

set_option autoImplicit false

namespace GlobPreset

/-- What is kept for an entry. -/
inductive DiskNode where
  /-- A file; each byte of its content that is not UTF-8 is a surrogate that stands for it. -/
  | file (content : Text)
  | directory
  | link (target : Text)
  | special
deriving DecidableEq, Repr

/-- How many bytes names and paths may have. -/
structure NameLimits where
  /-- The most bytes of a name. -/
  name : Nat
  /-- The most bytes of a path. -/
  path : Nat
deriving DecidableEq, Repr

/-- The usual limits. -/
def NameLimits.standard : NameLimits := ⟨255, 4095⟩

/-- The entries of a file system, each at its names from the root. -/
structure Disk where
  /-- The entries; the root itself is a directory and not among them. -/
  nodes : List (List Text × DiskNode)
  /-- How long names may be, if there are limits. -/
  limits : Option NameLimits
deriving DecidableEq, Repr

namespace Disk

/-! ### Entries -/

/-- A disk without entries. -/
def empty (limits : Option NameLimits) : Disk := ⟨[], limits⟩

/-- The entry at some names. -/
def at? (d : Disk) (names : List Text) : Option DiskNode :=
  if names.isEmpty then some .directory else lookup? names d.nodes

/-- Gives some names an entry in place of an earlier one. -/
def put (d : Disk) (names : List Text) (node : DiskNode) : Disk :=
  { d with nodes := d.nodes.filter (fun n => decide (n.1 ≠ names)) ++ [(names, node)] }

/-- Removes the entry at some names. -/
def erase (d : Disk) (names : List Text) : Disk :=
  { d with nodes := d.nodes.filter (fun n => decide (n.1 ≠ names)) }

/-- Removes the entry at some names and everything below it. -/
def eraseTree (d : Disk) (names : List Text) : Disk :=
  { d with nodes := d.nodes.filter (fun n => !names.isPrefixOf n.1) }

/-- The names directly inside a directory. -/
def childNames (d : Disk) (directory : List Text) : List Text :=
  d.nodes.filterMap fun n => if n.1.dropLast = directory then n.1.getLast? else none

/-! ### Finding -/

/-- The number of links that finding an entry follows. -/
def maxLinks : Nat := 40

/-- A name is too long. -/
def refusesName (d : Disk) (name : Text) : Bool :=
  d.limits.any (fun l => decide (l.name < Text.byteCount name))

/-- A path is too long. -/
def refusesPath (d : Disk) (path : Text) : Bool :=
  d.limits.any (fun l => decide (l.path < Text.byteCount path))

/-- What a path is followed for, which decides how its end is taken. -/
inductive Aim where
  /-- What the path leads to. -/
  | target
  /-- A file to write, which is made if nothing is there; no slash may follow its name. -/
  | content
  /-- The entry of that name, be it a link. -/
  | name
deriving DecidableEq, Repr

/-- Where a way through segments without links ends. -/
inductive Passage where
  /-- An entry is there. -/
  | found (names : List Text)
  /-- Nothing is there, but the directory that would hold it. -/
  | vacant (names : List Text)
  /-- The way ends early. -/
  | failed (error : SystemError)
  /-- A link is met: the directory that holds it, its target, and what is to come. -/
  | atLink (directory : List Text) (target : Text) (pending : List Text)
deriving DecidableEq, Repr

/-- Goes from a directory through segments until a link is met that has to be followed. -/
def pass (d : Disk) (aim : Aim) (current : List Text) : List Text → Passage
  | [] => .found current
  | s :: pending =>
    if s = [] ∨ s = [.of '.'] then pass d aim current pending
    else if s = [.of '.', .of '.'] then pass d aim current.dropLast pending
    else if aim = .content ∧ pending ≠ [] ∧ pending.all List.isEmpty then .failed .isDirectory
    else if d.refusesName s then .failed .nameTooLong
    else
      let next := current ++ [s]
      match d.at? next with
      | none => if pending.isEmpty then .vacant next else .failed .noEntry
      | some .directory => pass d aim next pending
      | some (.link target) =>
        if pending.isEmpty && aim == .name then .found next else .atLink current target pending
      | some _ => if pending.isEmpty then .found next else .failed .notDirectory

/-- Where a path starts from: an absolute one at the root. -/
def startOf (directory : List Text) (path : Text) : List Text :=
  if path.head? = some (.of '/') then [] else directory

/-- Goes through segments and follows at most `links` links. -/
def passWithin (d : Disk) (aim : Aim) :
    (links : Nat) → (directory segments : List Text) → Passage
  | 0, directory, segments =>
    match d.pass aim directory segments with
    | .atLink .. => .failed .tooManyLinks
    | p => p
  | links + 1, directory, segments =>
    match d.pass aim directory segments with
    | .atLink directory target pending =>
      passWithin d aim links (startOf directory target) (Path.segments target ++ pending)
    | p => p

/-- Where the way along a path ends. -/
def locate (d : Disk) (aim : Aim) (path : Text) : Passage :=
  if path.isEmpty then .failed .noEntry
  else if d.refusesPath path then .failed .nameTooLong
  else d.passWithin aim maxLinks [] (Path.segments path)

/-- What a path leads to, links being followed: its names and its entry. -/
def find (d : Disk) (path : Text) : Except SystemError (List Text × DiskNode) :=
  match d.locate .target path with
  | .found names =>
    match d.at? names with
    | some node => .ok (names, node)
    | none => .error .noEntry
  | .failed e => .error e
  | _ => .error .noEntry

/-- The kind of an entry that is no link. -/
def kindOf : DiskNode → NodeKind
  | .file _ => .file
  | .directory => .directory
  | _ => .other

/-- A code point that is in no path that a request takes: NUL, and a surrogate for no byte. -/
def isForbidden (c : CodePoint) : Bool := c == .of '\x00' || (c.isSurrogate && !c.isByte)

/-- A path that no request takes. -/
def isRefused (path : Text) : Bool := path.any isForbidden

/-- Why no request takes a path. -/
def refusalOf (path : Text) : FileError :=
  match Text.encodingError? CodePoint.isByte path with
  | some e => .unencodable e
  | none => .nulByte

/-- What a path leads to, if to anything. -/
def kind? (d : Disk) (path : Text) : Option NodeKind :=
  if isRefused path then none
  else
    match d.find path with
    | .ok (_, node) => some (kindOf node)
    | .error _ => none

/-- The kind of what a path leads to, if to anything; a name that is too long is an error. -/
def probe (d : Disk) (path : Text) : Except FileError (Option NodeKind) :=
  if isRefused path then .ok none
  else
    match d.find path with
    | .ok (_, node) => .ok (some (kindOf node))
    | .error .nameTooLong => .error (.system .nameTooLong path)
    | .error _ => .ok none

/-! ### Resolving -/

/-- The links met so far, each with the names that it leads to; one without is being resolved. -/
abbrev Met := List (List Text × Option (List Text))

/-- How far a path could be resolved. -/
inductive Resolution where
  /-- All links are resolved. -/
  | resolved (names : List Text)
  /-- A link leads to itself; the text goes on with what was to come. -/
  | looping (path : Text)
  /-- The path up to some name is one that no request takes. -/
  | refused (path : Text)
deriving DecidableEq, Repr

/-- Resolves segments from a directory; `follow` resolves the target of a link. -/
def resolveSegments (d : Disk) (follow : List Text → Text → Met → Resolution × Met)
    (current : List Text) (met : Met) : List Text → Resolution × Met
  | [] => (.resolved current, met)
  | s :: pending =>
    if s = [] ∨ s = [.of '.'] then resolveSegments d follow current met pending
    else if s = [.of '.', .of '.'] then resolveSegments d follow current.dropLast met pending
    else if isRefused s then (.refused (Location.below (current ++ [s])).toText, met)
    else
      let next := current ++ [s]
      let rest := Path.ofSegments pending
      match d.at? next with
      | some (.link target) =>
        match lookup? next met with
        | some (some names) => resolveSegments d follow names met pending
        | some none =>
          (.looping (Location.joinSegment (Location.below next).toText rest), met)
        | none =>
          match follow current target ((next, none) :: met) with
          | (.refused path, met) => (.refused path, met)
          | (.looping path, met) => (.looping (Location.joinSegment path rest), met)
          | (.resolved names, met) =>
            resolveSegments d follow names ((next, some names) :: met) pending
      | _ => resolveSegments d follow next met pending

/-- Resolves a path from a directory, going into at most `fuel` links that contain one another. -/
def resolveWithin (d : Disk) :
    (fuel : Nat) → (directory : List Text) → (path : Text) → Met → Resolution × Met
  | 0, directory, _, met => (.resolved directory, met)
  | fuel + 1, directory, path, met =>
    d.resolveSegments (resolveWithin d fuel) (startOf directory path) met (Path.segments path)

/-- The path that is left when every link is resolved. From a link that leads to itself on, nothing
is resolved any more. -/
def realPath? (d : Disk) (path : Text) : Except FileError Text :=
  match (d.resolveWithin (d.nodes.length + 1) [] path []).1 with
  | .resolved names => .ok (Location.below names).toText
  | .looping path => .ok (Location.ofText path).toText
  | .refused path => .error (refusalOf path)

/-- The path that is left when every link is resolved, for a path that requests take. -/
def realPath (d : Disk) (path : Text) : Text :=
  match d.realPath? path with
  | .ok real => real
  | .error _ => path

/-- The path that is left when every link is resolved, unless links lead in a circle. Whether they
do shows when the path is followed, so a circle that a later `..` leads out of does no harm. -/
def resolve (d : Disk) (path : Text) : Except FileError Text := do
  let real ← d.realPath? path
  if isRefused real then throw (refusalOf real)
  match d.find real with
  | .error .tooManyLinks => throw (.circularLinks real)
  | _ => return real

/-! ### Reading -/

/-- The entry of a name inside a directory. A link that leads nowhere is a link of the other kind;
one that cannot be followed does not even count as a link. -/
def entry (d : Disk) (asked : Text) (directory : List Text) (name : Text) : Entry :=
  let path := Location.joinSegment asked name
  match d.at? (directory ++ [name]) with
  | some (.link _) =>
    match d.find path with
    | .ok (_, node) => ⟨path, name, kindOf node, true⟩
    | .error .noEntry => ⟨path, name, .other, true⟩
    | .error _ => ⟨path, name, .other, false⟩
  | some node => ⟨path, name, kindOf node, false⟩
  | none => ⟨path, name, .other, false⟩

/-- The entries of a directory. -/
def list (d : Disk) (path : Text) : Except FileError (List Entry) :=
  if isRefused path then .error (refusalOf path)
  else
    match d.find path with
    | .ok (names, .directory) => .ok ((d.childNames names).map (d.entry path names))
    | .ok _ => .error (.system .notDirectory path)
    | .error e => .error (.system e path)

/-- The content of the file that a path leads to. -/
def read (d : Disk) (path : Text) : Except FileError Text :=
  if isRefused path then .error (refusalOf path)
  else
    match d.find path with
    | .ok (_, .file content) =>
      match Text.decodingError? content with
      | none => .ok content
      | some e => .error (.undecodable e)
    | .ok (_, .directory) => .error (.system .isDirectory path)
    | .ok _ => .ok []
    | .error e => .error (.system e path)

/-- The number of directories, the root included. -/
def directoryCount (d : Disk) : Nat :=
  (d.nodes.filter (fun n => n.2 == .directory)).length + 1

/-- The answers of a disk. -/
def fileSystem (d : Disk) : FileSystem where
  list := d.list
  realPath := d.realPath
  refusal? path :=
    match d.realPath? path with
    | .ok _ => none
    | .error e => some e
  kind? := d.kind?
  depthBound := d.directoryCount + 1

/-! ### Changing -/

/-- Gives the file that a path leads to, or a new one, a content. -/
def write (d : Disk) (path content : Text) : Except FileError Disk :=
  if isRefused path then .error (refusalOf path)
  else
    match d.locate .content path with
    | .found names =>
      match d.at? names with
      | some .directory => .error (.system .isDirectory path)
      | some (.file _) => .ok (d.put names (.file content))
      | _ => .ok d
    | .vacant names => .ok (d.put names (.file content))
    | .failed e => .error (.system e path)
    | .atLink .. => .error (.system .tooManyLinks path)

/-- A disk after a request of several steps, of which the last one may have failed. -/
structure Attempt where
  /-- The disk with what was done. -/
  disk : Disk
  /-- Why the request failed, if it did. -/
  failure : Option FileError
deriving DecidableEq, Repr

/-- Writes a text into the file that a path leads to, or into a new one. The file is opened, and
with that made or emptied, before the text is encoded; one with a surrogate cannot be. -/
def writeText (d : Disk) (path text : Text) : Attempt :=
  let error? := Text.encodingError? (fun _ => false) text
  match d.write path (if error?.isSome then [] else text) with
  | .ok opened => ⟨opened, error?.map .unencodable⟩
  | .error e => ⟨d, some e⟩

/-- Makes one directory. -/
def makeDirectory (d : Disk) (path : Text) : Except SystemError Disk :=
  match d.locate .name path with
  | .found _ => .error .entryExists
  | .vacant names => .ok (d.put names .directory)
  | .failed e => .error e
  | .atLink .. => .error .tooManyLinks

/-- Makes a directory that may be there already. -/
def ensureDirectory (d : Disk) (path : Text) : Attempt :=
  match d.makeDirectory path with
  | .ok d => ⟨d, none⟩
  | .error e =>
    match d.probe path with
    | .ok (some .directory) => ⟨d, none⟩
    | .ok _ => ⟨d, some (.system e path)⟩
    | .error failure => ⟨d, some failure⟩

/-- Makes a directory and all that contain it, given by its segments from the last one on. -/
def makeLineage (d : Disk) : List Text → Attempt
  | [] => ⟨d, none⟩
  | last :: above =>
    let path := (Location.below (last :: above).reverse).toText
    match d.makeDirectory path with
    | .error .noEntry =>
      match makeLineage d above with
      | ⟨d, none⟩ => d.ensureDirectory path
      | failed => failed
    | _ => d.ensureDirectory path

/-- Makes a directory and all that contain it; any may be there already. The directories that are
made before one fails stay. -/
def makeDirectories (d : Disk) (path : Text) : Attempt :=
  if isRefused path then ⟨d, some (refusalOf path)⟩ else d.makeLineage (Path.names path).reverse

/-- Removes the entry that a path names, which is not a directory. -/
def unlink (d : Disk) (path : Text) : Except FileError Disk :=
  if isRefused path then .error (refusalOf path)
  else
    match d.locate .name path with
    | .found names =>
      if d.at? names = some .directory then .error (.system .isDirectory path)
      else .ok (d.erase names)
    | .failed e => .error (.system e path)
    | _ => .error (.system .noEntry path)

end Disk

end GlobPreset
