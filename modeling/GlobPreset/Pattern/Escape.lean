import GlobPreset.Text.Blank

/-!
# Escapes in patterns

In a stored pattern a backslash takes the next character literally. This module writes a literal
path as a pattern, reads a pattern without magic back, and tells which patterns have magic.

## Main definitions

* `Pattern.escapeLiteral` — the pattern that stands for one literal path.
* `Pattern.unescape` — the text that is left when every escape is resolved.
* `Pattern.hasUnescaped`, `Pattern.hasWildcard`, `Pattern.hasMagic` — an unescaped character of a
  class, a wildcard, or a wildcard or brace.
* `Pattern.recursiveDirectory?` — the directory of a plain `dir/**`.
-/

set_option autoImplicit false

namespace GlobPreset.Pattern

open Text

/-! ### Character classes -/

/-- Characters that start a wildcard. -/
def isWildcard (c : CodePoint) : Bool := c == .of '*' || c == .of '?' || c == .of '['

/-- Characters with a meaning in a glob or in a brace alternation. -/
def isMagic (c : CodePoint) : Bool := isWildcard c || c == .of '{' || c == .of '}'

/-- Characters that a literal path has escaped wherever they stand. -/
def needsEscape (c : CodePoint) : Bool := isMagic c || c == .of '\\' || c == .of ']'

/-- Characters that a literal path has escaped in front: comment and exclusion marks, and the
blanks that reading a line strips. -/
def needsLeadEscape (c : CodePoint) : Bool := c == .of '#' || c == .of '!' || isBlank c

/-! ### Writing -/

/-- One character of a literal path. -/
def escapeChar (c : CodePoint) : Text := if needsEscape c then [.of '\\', c] else [c]

/-- The pattern of a literal path behind its first character; a space at the very end is
escaped, so that reading a line does not strip it. -/
def escapeTail : Text → Text
  | [] => []
  | c :: rest =>
    (if c = .of ' ' && rest.isEmpty then [.of '\\', .of ' '] else escapeChar c) ++ escapeTail rest

/-- The pattern that stands for one literal path. -/
def escapeLiteral : Text → Text
  | [] => []
  | c :: rest =>
    (if needsLeadEscape c then [.of '\\', c]
      else if c = .of ' ' && rest.isEmpty then [.of '\\', .of ' ']
      else escapeChar c) ++ escapeTail rest

/-! ### Reading -/

/-- Resolves every escape; a backslash at the end stands for nothing. -/
def unescape : Text → Text
  | [] => []
  | .of '\\' :: [] => []
  | .of '\\' :: c :: rest => c :: unescape rest
  | c :: rest => c :: unescape rest

/-- Some character of the class stands in the pattern unescaped. -/
def hasUnescaped (special : CodePoint → Bool) : Text → Bool
  | [] => false
  | .of '\\' :: [] => false
  | .of '\\' :: _ :: rest => hasUnescaped special rest
  | c :: rest => special c || hasUnescaped special rest

/-- Some wildcard stands in the pattern unescaped. -/
def hasWildcard (pattern : Text) : Bool := hasUnescaped isWildcard pattern

/-- Some wildcard or brace stands in the pattern unescaped. -/
def hasMagic (pattern : Text) : Bool := hasUnescaped isMagic pattern

/-- What a directory glob has behind its directory. -/
def recursiveTail : Text := [.of '/', .of '*', .of '*']

/-- The directory of a plain `dir/**`, whose directory part has no magic. -/
def recursiveDirectory? (pattern : Text) : Option Text :=
  if endsWith pattern recursiveTail then
    let head := dropEnd 3 pattern
    if head.isEmpty || hasMagic head then none else some (unescape head)
  else none

end GlobPreset.Pattern
