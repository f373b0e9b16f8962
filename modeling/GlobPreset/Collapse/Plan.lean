import GlobPreset.Collapse.Engine

/-!
# Rules and plans

A rule makes one kind of proposal at all places that it applies to, in order. A plan is a sequence
of rules; what they leave over is written out as literal patterns.

## Main definitions

* `Rule` — the four rules.
* `Engine.proposeAt` … `Engine.applyRule` — where a rule applies, and its effect on a run.
* `Engine.requests` — the directories that a rule asks to be scanned.
* `RulePlan`, `Engine.run` — a plan and its run.
* `Engine.runNamed` — the run of a plan whose rules are given by name.
-/

set_option autoImplicit false

namespace GlobPreset

/-! ### Rules -/

/-- A rule that collapses files into patterns. -/
inductive Rule where
  | fullDirectory
  | nearFullExclusion
  | directoryExtension
  | globalExtension
deriving DecidableEq, Repr

namespace Rule

/-- All rules. -/
def all : List Rule := [fullDirectory, nearFullExclusion, directoryExtension, globalExtension]

/-- The technique of a rule. -/
def technique : Rule → Technique
  | fullDirectory => .fullDirectory
  | nearFullExclusion => .nearFullExclusion
  | directoryExtension => .directoryExtension
  | globalExtension => .globalExtension

/-- The name of a rule. -/
def name (r : Rule) : Text := r.technique.name

/-- The rule of a name. -/
def ofName? (t : Text) : Option Rule := all.find? (fun r => r.name == t)

end Rule

/-- A sequence of rules under the threshold of a level. -/
structure RulePlan where
  /-- The name of the plan. -/
  name : Text
  /-- The level whose threshold holds; without one, nothing is excluded. -/
  level : Option Level
  /-- The rules, in order. -/
  rules : List Rule
deriving DecidableEq, Repr

namespace Engine

/-! ### The effect of a rule -/

/-- Makes proposals at some places, one after another. -/
def proposeAt {α : Type} (e : Engine) (propose : Run → α → Option Proposal) (r : Run)
    (places : List α) : Run :=
  places.foldl
    (fun r place =>
      match propose r place with
      | some p => r.accept e.policy p
      | none => r) r

/-- The directories with the extensions of uncovered files directly inside them. -/
def extensionsByDirectory (e : Engine) (r : Run) : List (Text × List Text) :=
  groupPairs
    ((r.uncovered e.policy e.selection).filterMap fun path =>
      if (Path.parent path).isEmpty || (Path.extension path).isEmpty then none
      else some (Path.parent path, Path.extension path))

/-- The directories and extensions of uncovered files, the deepest directory first. -/
def extensionPlaces (e : Engine) (r : Run) : List (Text × Text) :=
  (sortBy (fun a b => Path.deeperFirst a.1 b.1) (e.extensionsByDirectory r)).flatMap
    (fun g => (Text.sort (dedupe g.2)).map (fun extension => (g.1, extension)))

/-- The extensions of the files of the project, in order. -/
def globalExtensions (e : Engine) : List Text :=
  match e.scan? [] with
  | none => []
  | some scan =>
    Text.sort (dedupe ((scan.files.map Path.extension).filter isPlainExtension))

/-- The number of files that a plan may exclude one by one. -/
def thresholdOf (e : Engine) (level : Option Level) : Nat :=
  (level.map e.context.threshold).getD 0

/-- Applies a rule. -/
def applyRule (e : Engine) (threshold : Nat) (r : Run) : Rule → Run
  | .fullDirectory => e.proposeAt e.proposeDirectory? r e.candidates
  | .nearFullExclusion =>
    if threshold = 0 then r else e.proposeAt (e.proposeNearFull? threshold) r e.candidates
  | .directoryExtension => e.proposeAt e.proposeExtension? r (e.extensionPlaces r)
  | .globalExtension => e.proposeAt e.proposeGlobal? r e.globalExtensions

/-- The literal patterns of the files that are not covered. -/
def literals (e : Engine) (r : Run) : List Text :=
  (r.uncovered e.policy e.selection).map Pattern.escapeLiteral

/-- Applies rules one after another. -/
def applyRules (e : Engine) (threshold : Nat) (rules : List Rule) (r : Run) : Run :=
  rules.foldl (e.applyRule threshold) r

/-- Adds the literal patterns of the files that are left over. -/
def finish (e : Engine) (r : Run) : Run := { r with patterns := r.patterns ++ e.literals r }

/-- The run of a plan. -/
def run (e : Engine) (plan : RulePlan) : Run :=
  e.finish (e.applyRules (e.thresholdOf plan.level) plan.rules .start)

/-! ### Requests -/

/-- The directories that a rule asks to be scanned, in order; the project is empty. -/
def requests (e : Engine) (threshold : Nat) (r : Run) : Rule → List Text
  | .fullDirectory => e.candidates
  | .nearFullExclusion =>
    if threshold = 0 then [] else e.candidates.filter (fun d => !r.collapsed.contains d)
  | .directoryExtension =>
    (sortBy (fun a b => Path.deeperFirst a.1 b.1) (e.extensionsByDirectory r)).map Prod.fst
  | .globalExtension => [[]]

/-- The directories that some rules in a row ask to be scanned. -/
def requestsOf (e : Engine) (threshold : Nat) : List Rule → Run → List Text
  | [], _ => []
  | rule :: rest, r =>
    e.requests threshold r rule ++ requestsOf e threshold rest (e.applyRule threshold r rule)

/-- The name of the project, as a segment. -/
def projectSegment : Text := [.of '.']

/-- The rule asks for the project as a directory, which is refused. -/
def asksForProject (e : Engine) (threshold : Nat) (r : Run) (rule : Rule) : Bool :=
  rule != .globalExtension && (e.requests threshold r rule).contains projectSegment

/-- A run until it ends or is refused, with the directories that it asked to be scanned. -/
structure Attempt where
  /-- The run, or why it is refused. -/
  outcome : Except Fault Run
  /-- The requests until then. -/
  requests : List Text

/-- Applies rules given by name. An unknown rule ends the run, and so does a rule that asks for the
project as a directory. -/
def applyNamed (e : Engine) (plan : Text) (threshold : Nat) : List Text → Run → Attempt
  | [], r => ⟨.ok (e.finish r), []⟩
  | name :: rest, r =>
    match Rule.ofName? name with
    | none => ⟨.error (.unknownRule name plan), []⟩
    | some rule =>
      let asked := e.requests threshold r rule
      if e.asksForProject threshold r rule then
        ⟨.error .projectScan, asked.takeWhile (fun d => decide (d ≠ projectSegment))⟩
      else
        let next := applyNamed e plan threshold rest (e.applyRule threshold r rule)
        ⟨next.outcome, asked ++ next.requests⟩

/-- The run of a plan whose rules are given by name. -/
def runNamed (e : Engine) (plan : Text) (level : Option Level) (rules : List Text) : Attempt :=
  e.applyNamed plan (e.thresholdOf level) rules .start

end Engine

end GlobPreset
