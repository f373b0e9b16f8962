import GlobPreset.Text.Quoted

/-!
# Levels

How hard a compilation tries to shorten a pattern list.

## Main definitions

* `Level` — the three levels, the least effort first.
* `Level.name`, `Level.ofName?`, `Level.parse` — the names of the levels.
-/

set_option autoImplicit false

namespace GlobPreset

/-- The effort of a compilation. -/
inductive Level where
  | minimal
  | balanced
  | aggressive
deriving DecidableEq, Repr

/-- A name that no level has. -/
structure UnknownLevel where
  /-- The name as given. -/
  name : Text
deriving DecidableEq, Repr

namespace Level

/-- All levels, the least effort first. -/
def all : List Level := [minimal, balanced, aggressive]

/-- The level of a compilation that names none. -/
def standard : Level := balanced

/-- The name of a level. -/
def name : Level → Text
  | minimal => "minimal".toText
  | balanced => "balanced".toText
  | aggressive => "aggressive".toText

/-- The level of a name. -/
def ofName? (t : Text) : Option Level := all.find? (fun l => l.name == t)

/-- The level of a name; other names are refused. -/
def parse (t : Text) : Except UnknownLevel Level :=
  match ofName? t with
  | some l => .ok l
  | none => .error ⟨t⟩

end Level

/-- The wording of a refused name. -/
def UnknownLevel.message (e : UnknownLevel) : Text :=
  "Unknown optimization level ".toText ++ Text.quote e.name ++ "; expected one of ".toText ++
    Text.joinWith ", ".toText (Level.all.map Level.name)

end GlobPreset
