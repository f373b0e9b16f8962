import GlobPreset.Path.Basic
import GlobPreset.Text.Quoted

/-!
# Safe paths

A path is safe when it cannot leave the project: it holds no NUL, is relative on every platform,
and has no parent segment however its separators are written.

## Main definitions

* `Path.hasDrive` — a drive letter, a network share or the extended form of one in front.
* `Path.isAbsolute`, `Path.hasParentSegment` — the two ways out of the project.
* `UnsafePath` — a refused path with the cause.
* `Path.checkSafe` — refuses unsafe paths; the first cause in the order of `UnsafePath.Cause` wins.
-/

set_option autoImplicit false

namespace GlobPreset

/-! ### Absolute paths -/

namespace Path

open Text

/-- Letters of the Latin alphabet without accents. -/
def isDriveLetter (c : CodePoint) : Bool :=
  (.of 'A' ≤ c && c ≤ .of 'Z') || (.of 'a' ≤ c && c ≤ .of 'z')

/-- Reads a slash as a backslash. -/
def toBackslashes (path : Text) : Text := path.map (fun c => if c = .of '/' then .of '\\' else c)

/-- The path starts with a drive. Separators count alike. A drive is a letter with a colon, the
mark of an extended path, or a share: two separators, a server name, and a separator that is
not doubled. -/
def hasDrive (path : Text) : Bool :=
  match toBackslashes path with
  | .of '\\' :: .of '\\' :: c :: rest =>
    (c == .of '?' && rest.head? == some (.of '\\')) ||
      (c != .of '\\' &&
        match afterFirst? (.of '\\') rest with
        | some share => share.head? != some (.of '\\')
        | none => false)
  | c :: .of ':' :: _ => isDriveLetter c
  | _ => false

/-- The path starts at a root, of any platform. -/
def isAbsolute (path : Text) : Bool := path.head? == some (.of '/') || hasDrive path

/-- Some segment is `..`. -/
def hasParentSegment (path : Text) : Bool := (segments path).any (· == [.of '.', .of '.'])

end Path

/-! ### The check -/

/-- Why a path is refused, the cause that is reported first standing first. -/
inductive UnsafePath.Cause where
  | nulByte
  | absolute
  | parentSegment
deriving DecidableEq, Repr

/-- A refused path. -/
structure UnsafePath where
  /-- What the path was given as. -/
  role : Text
  /-- The path as given. -/
  path : Text
  /-- Why it is refused. -/
  cause : UnsafePath.Cause
deriving DecidableEq, Repr

namespace UnsafePath

/-- The wording of a cause. -/
def Cause.message : Cause → Text
  | .nulByte => "contains a NUL byte".toText
  | .absolute => "must be relative to the project root".toText
  | .parentSegment => "contains a '..' segment".toText

/-- The wording of a refusal. -/
def message (e : UnsafePath) : Text :=
  "Unsafe ".toText ++ e.role ++ " ".toText ++ Text.quote e.path ++ ": ".toText ++ e.cause.message

end UnsafePath

/-- The first cause to refuse a path, if there is one. -/
def Path.unsafeCause? (path : Text) : Option UnsafePath.Cause :=
  if path.contains (.of '\x00') then some .nulByte
  else if isAbsolute path then some .absolute
  else if hasParentSegment (toSlashes path) then some .parentSegment
  else none

/-- Refuses unsafe paths. -/
def Path.checkSafe (role path : Text) : Except UnsafePath Unit :=
  match unsafeCause? path with
  | some cause => .error ⟨role, path, cause⟩
  | none => .ok ()

end GlobPreset
