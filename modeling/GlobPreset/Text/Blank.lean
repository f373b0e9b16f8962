import GlobPreset.Text.Basic

/-!
# Blanks and line boundaries

The characters that count as blank at the edges of a line, and the cutting of a text into lines.

## Main definitions

* `Text.isBlank` — Unicode white space together with the four separators U+001C to U+001F.
* `Text.strip`, `Text.stripStart`, `Text.stripEnd` — a text without the blanks at its edges.
* `Text.isLineBoundary`, `Text.lines`, `Text.keptLines` — a line ends at a boundary character, a
  carriage return followed by a line feed being one boundary; the last line needs no boundary.
* `Text.unifyNewlines` — carriage returns read as line feeds.
-/

set_option autoImplicit false

namespace GlobPreset.Text

/-! ### Blanks -/

/-- White space of Unicode, and the separators U+001C to U+001F. -/
def isBlank (c : CodePoint) : Bool :=
  let n := c.toNat
  (0x09 ≤ n && n ≤ 0x0D) || (0x1C ≤ n && n ≤ 0x20) || n == 0x85 || n == 0xA0 || n == 0x1680 ||
    (0x2000 ≤ n && n ≤ 0x200A) || n == 0x2028 || n == 0x2029 || n == 0x202F || n == 0x205F ||
    n == 0x3000

/-- The text without leading blanks. -/
def stripStart (t : Text) : Text := t.dropWhile isBlank

/-- The text without trailing blanks. -/
def stripEnd (t : Text) : Text := dropEndWhile isBlank t

/-- The text without blanks at its edges. -/
def strip (t : Text) : Text := dropAround isBlank t

/-! ### Lines -/

/-- The characters that end a line. -/
def isLineBoundary (c : CodePoint) : Bool :=
  let n := c.toNat
  (0x0A ≤ n && n ≤ 0x0D) || (0x1C ≤ n && n ≤ 0x1E) || n == 0x85 || n == 0x2028 || n == 0x2029

/-- Puts a character in front of the first line. -/
def consLine (c : CodePoint) : List Text → List Text
  | [] => [[c]]
  | line :: rest => (c :: line) :: rest

/-- The lines of a text, each with the boundary that ends it. -/
def keptLines : Text → List Text
  | [] => []
  | .of '\r' :: .of '\n' :: rest => [.of '\r', .of '\n'] :: keptLines rest
  | c :: rest => if isLineBoundary c then [c] :: keptLines rest else consLine c (keptLines rest)

/-- The lines of a text, without the boundaries. -/
def lines : Text → List Text
  | [] => []
  | .of '\r' :: .of '\n' :: rest => [] :: lines rest
  | c :: rest => if isLineBoundary c then [] :: lines rest else consLine c (lines rest)

/-- Reads a carriage return, alone or before a line feed, as one line feed. -/
def unifyNewlines : Text → Text
  | [] => []
  | .of '\r' :: .of '\n' :: rest => .of '\n' :: unifyNewlines rest
  | c :: rest => (if c = .of '\r' then .of '\n' else c) :: unifyNewlines rest

/-- The pieces between line feeds: where a pattern's wildcard stops. -/
def feedLines (t : Text) : List Text := splitOn (.of '\n') t

end GlobPreset.Text
