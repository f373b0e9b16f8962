import GlobPreset.Collapse.Engine
import GlobPreset.FileSystem.Memory

/-!
# One-line descriptions

What the larger values of the library show of themselves in a log.

## Main definitions

* `MemoryTree.describe`, `IgnoreRules.describe`, `Matcher.describe`, `Scanner.describe`,
  `Coverage.describe`, `Engine.describe` — the descriptions.
-/

set_option autoImplicit false

namespace GlobPreset

/-- The description of a file system on disk. -/
def describeDisk : Text := "LocalFileSystem()".toText

/-- The description of a tree in memory: its root and the number of its files. -/
def MemoryTree.describe (t : MemoryTree) : Text :=
  "MemoryFileSystem(root=".toText ++ Text.quote t.root.toText ++ ", files=".toText ++
    Text.ofNat t.files.length ++ ")".toText

/-- The description of ignored names: the directory names in order. -/
def IgnoreRules.describe (r : IgnoreRules) : Text :=
  "IgnoreRules(directories=".toText ++
    Text.quoteList (Text.sort (dedupe r.directories)) ++ ")".toText

/-- The description of a matcher: its patterns. -/
def Matcher.describe (m : Matcher) : Text :=
  "PatternMatcher(".toText ++ Text.quoteList m.patterns ++ ")".toText

/-- The description of a scanner: the path of its project. -/
def Scanner.describe (s : Scanner) : Text :=
  "DirectoryScanner(project_root=".toText ++ Text.quote s.root ++ ")".toText

/-- The description of a coverage: the number of selected files. -/
def Coverage.describe (c : Coverage) : Text :=
  "CoverageAnalyzer(selected=".toText ++ Text.ofNat c.size ++ ")".toText

/-- The description of an engine: the numbers of its files and of its directories. -/
def Engine.describe (e : Engine) : Text :=
  "RuleEngine(selection=".toText ++ Text.ofNat e.selection.length ++ ", candidate_dirs=".toText ++
    Text.ofNat e.candidates.length ++ ")".toText

end GlobPreset
