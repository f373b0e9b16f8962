import GlobPreset.Path.Basic
import GlobPreset.Pattern.Escape
import GlobPreset.Text.Blank

/-!
# The look of a glob

Whether an input reads as a pattern rather than as the name of a file. A bracket expression counts
only if it looks like a class of characters: `f[1].ts` is a plain name.

## Main definitions

* `Pattern.looksLikeGlob` — the test.
* `Pattern.ofDirectory` — the pattern of everything below a directory.
-/

set_option autoImplicit false

namespace GlobPreset.Pattern

open Text

/-- A line holds a group in braces with `mark` inside: the first opening brace, `mark` somewhere
behind it, and a closing brace behind that. -/
def hasBracedMark (mark : Text) (line : Text) : Bool :=
  match afterFirst? (.of '{') line with
  | none => false
  | some rest => markThenClose rest
where
  /-- The mark stands here or later, and a closing brace behind it. -/
  markThenClose : Text → Bool
    | [] => false
    | c :: rest =>
      (match dropLead? mark (c :: rest) with
        | some behind => behind.contains (.of '}')
        | none => false) || markThenClose rest

/-- What may stand before the parenthesis of an extended glob. -/
def opensExtended (c : CodePoint) : Bool :=
  c == .of '?' || c == .of '*' || c == .of '+' || c == .of '@' || c == .of '!'

/-- Some extended glob opens. -/
def hasExtendedOpener : Text → Bool
  | [] => false
  | c :: rest => (opensExtended c && rest.head? == some (.of '(')) || hasExtendedOpener rest

/-- The contents of the bracket expressions, from left to right and without overlap: an opening
bracket that no backslash precedes, at least one character, and the next closing bracket.
`escaped` says that a backslash precedes, `skip` how many characters an expression still takes. -/
def bracketContents (escaped : Bool) (skip : Nat) : Text → List Text
  | [] => []
  | c :: rest =>
    match skip with
    | skip + 1 => bracketContents (c == .of '\\') skip rest
    | 0 =>
      let content := rest.takeWhile (· != .of ']')
      if c == .of '[' && !escaped && !content.isEmpty && content.length < rest.length then
        content :: bracketContents false (content.length + 1) rest
      else bracketContents (c == .of '\\') 0 rest

/-- The content of a bracket expression is a class: it has a dash or several characters. -/
def isClassContent (content : Text) : Bool := content.contains (.of '-') || 2 ≤ content.length

/-- The input reads as a glob. -/
def looksLikeGlob (text : Text) : Bool :=
  text.head? == some (.of '!') || text.contains (.of '*') || text.contains (.of '?') ||
    (feedLines text).any
      (fun l => hasBracedMark [.of ','] l || hasBracedMark [.of '.', .of '.'] l) ||
    hasExtendedOpener text || (bracketContents false 0 text).any isClassContent

/-- The pattern of everything below a directory, given with any separators. -/
def ofDirectory (path : Text) : Text :=
  escapeLiteral (Path.dropDotSlash (Path.dropEndSlashes (Path.toSlashes path))) ++ recursiveTail

end GlobPreset.Pattern
