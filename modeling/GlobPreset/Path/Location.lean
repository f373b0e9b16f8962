import GlobPreset.Path.Basic

/-!
# Locations

Paths outside a project, as an operating system of the POSIX family reads them: the join of a
directory and further segments, and the normal form of a path, in which no segment is empty or
`.` and no `..` follows a name.

## Main definitions

* `Location` — a path in normal form: what it starts from, and its segments.
* `Location.ofText`, `Location.toText` — normalization, and the text of a normal form.
* `Location.parent` — all but the last segment.
* `Location.joinText` — a path continued by further segments, of which an absolute one starts anew.
-/

set_option autoImplicit false

namespace GlobPreset

/-- What a path starts from: nothing, the root, or the root written with exactly two slashes,
which POSIX keeps apart. -/
inductive Anchor where
  | relative
  | root
  | doubleRoot
deriving DecidableEq, Repr

/-- A path in normal form. -/
structure Location where
  /-- What the path starts from. -/
  anchor : Anchor
  /-- The segments behind the anchor. -/
  segments : List Text
deriving DecidableEq, Repr

namespace Location

open Text

/-! ### Normal form -/

/-- The anchor of a path. -/
def anchorOf : Text → Anchor
  | .of '/' :: .of '/' :: .of '/' :: _ => .root
  | .of '/' :: .of '/' :: _ => .doubleRoot
  | .of '/' :: _ => .root
  | _ => .relative

/-- Goes one segment further; `done` holds the segments passed so far, the last one first.
At an anchor, `..` leads nowhere; a relative path keeps it. -/
def walkSegment (anchor : Anchor) (done : List Text) (segment : Text) : List Text :=
  if segment = [] ∨ segment = [.of '.'] then done
  else if segment = [.of '.', .of '.'] then
    match done with
    | [] => if anchor = .relative then [segment] else []
    | last :: rest => if last = [.of '.', .of '.'] then segment :: done else rest
  else segment :: done

/-- The normal form of the segments behind an anchor. -/
def normalSegments (anchor : Anchor) (parts : List Text) : List Text :=
  (parts.foldl (walkSegment anchor) []).reverse

/-- The normal form of a path. A relative path that leads nowhere is `.`. -/
def ofText (path : Text) : Location :=
  let anchor := anchorOf path
  match anchor, normalSegments anchor (Path.segments path) with
  | .relative, [] => ⟨.relative, [[.of '.']]⟩
  | anchor, parts => ⟨anchor, parts⟩

/-- The text of an anchor. -/
def anchorText : Anchor → Text
  | .relative => []
  | .root => [.of '/']
  | .doubleRoot => [.of '/', .of '/']

/-- The text of a location. -/
def toText (l : Location) : Text := anchorText l.anchor ++ Path.ofSegments l.segments

/-- The root. -/
def top : Location := ⟨.root, []⟩

/-- The location of the given segments below the root. -/
def below (parts : List Text) : Location := ⟨.root, parts⟩

/-- The containing location; a location without segments is its own. -/
def parent (l : Location) : Location := ⟨l.anchor, l.segments.dropLast⟩

/-! ### Joining texts -/

/-- Continues a path by one segment. An absolute segment starts anew, an empty one adds a slash. -/
def joinSegment (path segment : Text) : Text :=
  if segment.head? = some (.of '/') then segment
  else if path.isEmpty || path.getLast? = some (.of '/') then path ++ segment
  else path ++ .of '/' :: segment

/-- Continues a path by several segments. -/
def joinText (path : Text) (parts : List Text) : Text := parts.foldl joinSegment path

end Location

end GlobPreset
