import GlobPreset.Path.Basic
import GlobPreset.Text.Encoding

/-!
# File systems

What the library asks of a file system: the entries of a directory, the path that is left when
every link is resolved, and what a path leads to.

## Main definitions

* `NodeKind`, `Entry` — what a path leads to, and an entry of a directory.
* `FileError` — why a file system refuses a request.
* `FileSystem` — the answers of a file system.
-/

set_option autoImplicit false

namespace GlobPreset

/-- What a path leads to. -/
inductive NodeKind where
  | directory
  | file
  | other
deriving DecidableEq, Repr

/-- An entry of a directory. -/
structure Entry where
  /-- The path of the entry: that of the directory, as it was asked for, and the name. -/
  path : Text
  /-- The name of the entry. -/
  name : Text
  /-- What the entry leads to; a link that leads nowhere is of the other kind. -/
  kind : NodeKind
  /-- The entry is a link. -/
  isLink : Bool
deriving DecidableEq, Repr

/-! ### Refusals -/

/-- The refusals of an operating system. -/
inductive SystemError where
  | noEntry
  | entryExists
  | notDirectory
  | isDirectory
  | nameTooLong
  | tooManyLinks
deriving DecidableEq, Repr

/-- The number of a refusal. -/
def SystemError.code : SystemError → Nat
  | noEntry => 2
  | entryExists => 17
  | notDirectory => 20
  | isDirectory => 21
  | nameTooLong => 36
  | tooManyLinks => 40

/-- The wording of a refusal. -/
def SystemError.text : SystemError → Text
  | noEntry => "No such file or directory".toText
  | entryExists => "File exists".toText
  | notDirectory => "Not a directory".toText
  | isDirectory => "Is a directory".toText
  | nameTooLong => "File name too long".toText
  | tooManyLinks => "Too many levels of symbolic links".toText

/-- Why a file system refuses a request about a path. -/
inductive FileError where
  /-- The directory refuses to be listed. -/
  | denied (path : Text)
  /-- Nothing is there to be listed. -/
  | missingDirectory (path : Text)
  /-- What is there is not a directory. -/
  | notDirectory (path : Text)
  /-- No content is kept for the path. -/
  | noContent (path : Text)
  /-- The operating system refuses. -/
  | system (error : SystemError) (path : Text)
  /-- The path holds a NUL, which no operating system takes. -/
  | nulByte
  /-- The path, or the content to be written, has no form in UTF-8. -/
  | unencodable (error : EncodingError)
  /-- The content is not UTF-8. -/
  | undecodable (error : DecodingError)
  /-- The links on the way to the path lead in a circle. -/
  | circularLinks (path : Text)
deriving DecidableEq, Repr

/-- The wording of a refusal. -/
def FileError.message : FileError → Text
  | denied path => "Permission denied: ".toText ++ Text.quote path
  | missingDirectory path => "No such directory: ".toText ++ Text.quote path
  | notDirectory path => "Not a directory: ".toText ++ Text.quote path
  | noContent path => Text.quote path
  | system error path =>
    "[Errno ".toText ++ Text.ofNat error.code ++ "] ".toText ++ error.text ++ ": ".toText ++
      Text.quote path
  | nulByte => "embedded null byte".toText
  | unencodable error => error.message
  | undecodable error => error.message
  | circularLinks path => "Symlink loop from ".toText ++ Text.quote path

/-! ### Answers -/

/-- The answers of a file system. -/
structure FileSystem where
  /-- The entries of a directory, in any order. -/
  list : Text → Except FileError (List Entry)
  /-- The path that is left when every link is resolved. -/
  realPath : Text → Text
  /-- Why a path cannot be resolved, if it cannot; one that leads to something can. -/
  refusal? : Text → Option FileError
  /-- What a path leads to, if to anything. -/
  kind? : Text → Option NodeKind
  /-- More than the number of directories with different real paths; no path from one of them to
  another needs more steps. -/
  depthBound : Nat

namespace FileSystem

/-- The path leads to something. -/
def isPresent (fs : FileSystem) (path : Text) : Bool := (fs.kind? path).isSome

/-- The path leads to a file. -/
def isFile (fs : FileSystem) (path : Text) : Bool := fs.kind? path == some .file

/-- The path leads to a directory. -/
def isDirectory (fs : FileSystem) (path : Text) : Bool := fs.kind? path == some .directory

/-- Orders entries by name. -/
def entryOrder (a b : Entry) : Bool := Text.le a.name b.name

/-- The entries of a directory, in order of name. -/
def sortedList (fs : FileSystem) (path : Text) : Except FileError (List Entry) :=
  (fs.list path).map (sortBy entryOrder)

end FileSystem

end GlobPreset
