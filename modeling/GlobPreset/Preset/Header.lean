import GlobPreset.Compile

/-!
# Preset files

A preset is stored as a text: comments that tell where it comes from, an empty line, and then one
pattern a line.

## Main definitions

* `Timestamp` — a moment as it is written in a header.
* `PresetFile.Summary`, `PresetFile.Origin` — what a header tells about a compilation, and about
  the preset.
* `PresetFile.render` — the text of a preset.
* `PresetFile.patternLines` — the patterns of a text.
* `PresetFile.template` — the text of a preset that was made from nothing.
-/

set_option autoImplicit false

namespace GlobPreset

/-! ### Moments -/

/-- A moment, to the second. -/
structure Timestamp where
  /-- The year. -/
  year : Nat
  /-- The month of the year. -/
  month : Nat
  /-- The day of the month. -/
  day : Nat
  /-- The hour of the day. -/
  hour : Nat
  /-- The minute of the hour. -/
  minute : Nat
  /-- The second of the minute. -/
  second : Nat
  /-- Minutes ahead of universal time, if known. -/
  offset : Option Int
deriving DecidableEq, Repr

namespace Timestamp

open Text

/-- Two digits, a colon and two digits. -/
def clock (hours minutes : Nat) : Text := paddedNat 2 hours ++ .of ':' :: paddedNat 2 minutes

/-- The offset of a moment. -/
def offsetText (minutes : Int) : Text :=
  (if minutes < 0 then .of '-' else .of '+') :: clock (minutes.natAbs / 60) (minutes.natAbs % 60)

/-- The moment in the extended format of ISO 8601. -/
def toText (t : Timestamp) : Text :=
  paddedNat 4 t.year ++ .of '-' :: paddedNat 2 t.month ++ .of '-' :: paddedNat 2 t.day ++
    .of 'T' :: clock t.hour t.minute ++ .of ':' :: paddedNat 2 t.second ++
      ((t.offset.map offsetText).getD [])

end Timestamp

namespace PresetFile

open Text

/-! ### Headers -/

/-- What a header tells about a compilation. -/
structure Summary where
  /-- The name of the level. -/
  level : Text
  /-- The techniques used, each with its details. -/
  applied : List (Text × Text)
  /-- The number of files. -/
  inputFiles : Int
  /-- The number of patterns. -/
  finalPatterns : Int
  /-- The number of entries saved. -/
  savedPatterns : Int
deriving DecidableEq, Repr

/-- The summary of a compilation. -/
def Summary.of (c : Compilation) : Summary where
  level := c.level.name
  applied := c.applied.map (fun a => (a.technique.name, a.details))
  inputFiles := c.stats.inputFiles
  finalPatterns := c.stats.finalPatterns
  savedPatterns := c.stats.savedPatterns

/-- Where a preset comes from. Zero numbers and an empty source are not told. -/
structure Origin where
  /-- A description of the source. -/
  source : Text
  /-- The number of patterns that were kept as given. -/
  preserved : Int
  /-- The number of directories that became patterns. -/
  converted : Int
  /-- The compilation of the files. -/
  summary : Option Summary
deriving DecidableEq, Repr

/-- The comments on a compilation. -/
def Summary.lines (s : Summary) : List Text :=
  ["# Optimization: ".toText ++ s.level,
    "# Optimized: ".toText ++ ofInt s.inputFiles ++ " files → ".toText ++
      ofInt s.finalPatterns ++ " patterns (saved ".toText ++ ofInt s.savedPatterns ++ [.of ')']] ++
  (if s.applied.isEmpty then []
  else "# Applied rules:".toText ::
    s.applied.map (fun a => "#   - ".toText ++ a.1 ++ ": ".toText ++ a.2))

/-- The comments on the origin of a preset. -/
def Origin.lines (o : Origin) : List Text :=
  (if o.source.isEmpty then [] else ["# Source: ".toText ++ o.source]) ++
  (if o.preserved = 0 then []
    else ["# Patterns preserved as provided: ".toText ++ ofInt o.preserved]) ++
  (if o.converted = 0 then []
    else ["# Directories converted to patterns: ".toText ++ ofInt o.converted]) ++
  ((o.summary.map Summary.lines).getD [])

/-- The comments in front of the patterns. -/
def header (name : Text) (origin : Option Origin) (now : Timestamp) : List Text :=
  ("# ".toText ++ name ++ " preset".toText) :: ("# Generated: ".toText ++ now.toText) ::
    ((origin.map Origin.lines).getD [])

/-- The text of a preset. -/
def render (name : Text) (patterns : List Text) (origin : Option Origin) (now : Timestamp) :
    Text :=
  joinWith [.of '\n'] (header name origin now ++ [] :: patterns) ++ [.of '\n']

/-- The patterns of a text: its lines without edge blanks, empty ones and comments left out. -/
def patternLines (text : Text) : List Text :=
  ((lines text).map strip).filter (fun l => !l.isEmpty && l.head? != some (.of '#'))

/-! ### The template -/

/-- The text of a preset that was made from nothing. -/
def template (name : Text) : Text :=
  "# ".toText ++ name ++
    (" preset\n# Use gitignore-style glob syntax\n# Include patterns:\n**/*.py\n**/*.ts\n" ++
      "**/*.tsx\n**/*.js\n\n# Exclude patterns (use ! prefix):\n!**/*.test.*\n" ++
      "!**/*.spec.*\n").toText

end PresetFile

end GlobPreset
