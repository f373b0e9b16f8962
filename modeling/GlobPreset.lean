import GlobPreset.Describe
import GlobPreset.Preset.Workflow
import GlobPreset.Proofs.Collapse.Account
import GlobPreset.Proofs.Collapse.Characters
import GlobPreset.Proofs.Collapse.Denotation
import GlobPreset.Proofs.Collapse.Essential
import GlobPreset.Proofs.Collapse.Glob
import GlobPreset.Proofs.Collapse.Record
import GlobPreset.Proofs.Collapse.Rules
import GlobPreset.Proofs.Collapse.Soundness
import GlobPreset.Proofs.Collapse.Steps
import GlobPreset.Proofs.Compile.Balance
import GlobPreset.Proofs.Compile.Compactness
import GlobPreset.Proofs.Compile.Minimal
import GlobPreset.Proofs.Compile.RoundTrip
import GlobPreset.Proofs.Compile.Spellings
import GlobPreset.Proofs.Emit.Alternatives
import GlobPreset.Proofs.Emit.Count
import GlobPreset.Proofs.Emit.Dropped
import GlobPreset.Proofs.Emit.Eliminate
import GlobPreset.Proofs.Emit.Families
import GlobPreset.Proofs.Emit.Merge
import GlobPreset.Proofs.Emit.Outermost
import GlobPreset.Proofs.Emit.Rearranged
import GlobPreset.Proofs.Emit.Redundant
import GlobPreset.Proofs.Expansion.Appending
import GlobPreset.Proofs.Expansion.Confinement
import GlobPreset.Proofs.Expansion.Declarative
import GlobPreset.Proofs.Expansion.Outcome
import GlobPreset.Proofs.Expansion.Refusal
import GlobPreset.Proofs.FileSystem.Agreement
import GlobPreset.Proofs.FileSystem.Answers
import GlobPreset.Proofs.FileSystem.Apart
import GlobPreset.Proofs.FileSystem.Changes
import GlobPreset.Proofs.FileSystem.Circling
import GlobPreset.Proofs.FileSystem.Clear
import GlobPreset.Proofs.FileSystem.Components
import GlobPreset.Proofs.FileSystem.Content
import GlobPreset.Proofs.FileSystem.Disk
import GlobPreset.Proofs.FileSystem.Growth
import GlobPreset.Proofs.FileSystem.Listed
import GlobPreset.Proofs.FileSystem.Memory
import GlobPreset.Proofs.FileSystem.Opening
import GlobPreset.Proofs.FileSystem.Ordinary
import GlobPreset.Proofs.FileSystem.Project
import GlobPreset.Proofs.FileSystem.Reach
import GlobPreset.Proofs.FileSystem.Resolving
import GlobPreset.Proofs.FileSystem.Survey
import GlobPreset.Proofs.FileSystem.Turns
import GlobPreset.Proofs.FileSystem.Unlinked
import GlobPreset.Proofs.FileSystem.Ways
import GlobPreset.Proofs.Path.Keys
import GlobPreset.Proofs.Path.Locations
import GlobPreset.Proofs.Path.Names
import GlobPreset.Proofs.Path.Ordinary
import GlobPreset.Proofs.Path.Safe
import GlobPreset.Proofs.Pattern.Alternation
import GlobPreset.Proofs.Pattern.Base
import GlobPreset.Proofs.Pattern.DirectoryGlob
import GlobPreset.Proofs.Pattern.Groups
import GlobPreset.Proofs.Pattern.Inert
import GlobPreset.Proofs.Pattern.Matching
import GlobPreset.Proofs.Pattern.Spelled
import GlobPreset.Proofs.Pattern.Spelling
import GlobPreset.Proofs.Pattern.Stored
import GlobPreset.Proofs.Pattern.StoredLiterals
import GlobPreset.Proofs.Preset.Asked
import GlobPreset.Proofs.Preset.Create
import GlobPreset.Proofs.Preset.File
import GlobPreset.Proofs.Preset.Globs
import GlobPreset.Proofs.Preset.Inputs
import GlobPreset.Proofs.Preset.Lasting
import GlobPreset.Proofs.Preset.Leaving
import GlobPreset.Proofs.Preset.Paths
import GlobPreset.Proofs.Preset.Readable
import GlobPreset.Proofs.Preset.Readers
import GlobPreset.Proofs.Preset.Reading
import GlobPreset.Proofs.Preset.Reads
import GlobPreset.Proofs.Preset.Renew
import GlobPreset.Proofs.Preset.Room
import GlobPreset.Proofs.Preset.Saved
import GlobPreset.Proofs.Preset.Serving
import GlobPreset.Proofs.Preset.Shelf
import GlobPreset.Proofs.Preset.Shelving
import GlobPreset.Proofs.Preset.Tasks
import GlobPreset.Proofs.Results
import GlobPreset.Proofs.Scan.Distinct
import GlobPreset.Proofs.Scan.Scannable
import GlobPreset.Proofs.Scan.Session
import GlobPreset.Proofs.Selection.Additions
import GlobPreset.Proofs.Selection.Drawing
import GlobPreset.Proofs.Selection.Invariant
import GlobPreset.Proofs.Selection.Normal
import GlobPreset.Proofs.Selection.Ordered
import GlobPreset.Proofs.Selection.Tree
import GlobPreset.Proofs.Text.Cutting
import GlobPreset.Proofs.Text.Folding
import GlobPreset.Proofs.Text.Order
import GlobPreset.Proofs.Text.Ranked
import GlobPreset.Proofs.Wildmatch.Leading
import GlobPreset.Proofs.Wildmatch.Literal
import GlobPreset.Proofs.Wildmatch.Repeating
import GlobPreset.Proofs.Wildmatch.Selecting
