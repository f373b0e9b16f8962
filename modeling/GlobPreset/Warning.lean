import GlobPreset.FileSystem.Basic

/-!
# Warnings

What is reported beside a result: parts of a tree that were left out, and inputs that were skipped.

## Main definitions

* `Warning` — the occasions; `Warning.message` — their wording.
-/

set_option autoImplicit false

namespace GlobPreset

/-- An occasion to warn. Paths are relative to the project; the project itself is empty. -/
inductive Warning where
  /-- A walk came back to a directory that it is inside of. -/
  | cycle (directory : Text)
  /-- A walk could not list a directory. -/
  | unwalkable (directory : Text) (error : FileError)
  /-- A scanned directory lies outside of the project. -/
  | outsideDirectory (directory real : Text)
  /-- An entry of a scanned directory is a link out of the project. -/
  | outsideEntry (path real directory : Text)
  /-- A scan could not list a directory. -/
  | unscannable (directory : Text) (error : FileError)
  /-- An entry of a scanned directory is neither a file nor a directory. -/
  | specialEntry (path directory : Text)
  /-- An input is not a file of the project. -/
  | skippedInput (input project : Text)
deriving DecidableEq, Repr

namespace Warning

/-- The name of a directory; that of the project is a dot. -/
def shown (directory : Text) : Text :=
  Text.quote (if directory.isEmpty then [.of '.'] else directory)

/-- The wording of a warning. -/
def message : Warning → Text
  | cycle directory =>
    "[WARNING][patterns.walk_files] Symlink cycle at ".toText ++ Text.quote directory ++
      "; not descending".toText
  | unwalkable directory error =>
    "[WARNING][patterns.walk_files] Cannot list ".toText ++ shown directory ++ ": ".toText ++
      error.message
  | outsideDirectory directory real =>
    "[WARNING][scanner.scan] ".toText ++ Text.quote directory ++
      " resolves outside the project (".toText ++ Text.quote real ++
      "); it will not be generalized".toText
  | outsideEntry path real directory =>
    "[WARNING][scanner.scan] ".toText ++ Text.quote path ++
      " resolves outside the project (".toText ++ Text.quote real ++ "); ".toText ++
      shown directory ++ " will not be generalized".toText
  | unscannable directory error =>
    "[WARNING][scanner.scan] Cannot list ".toText ++ shown directory ++ ": ".toText ++ error.message
  | specialEntry path directory =>
    "[WARNING][scanner.scan] ".toText ++ Text.quote path ++
      " is neither a file nor a directory; ".toText ++ shown directory ++
      " will not be generalized".toText
  | skippedInput input project =>
    "[WARNING][presets.create_preset] Skipping ".toText ++ Text.quote input ++
      ": not a file in ".toText ++ Text.quote project

end Warning

end GlobPreset
