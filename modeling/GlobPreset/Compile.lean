import GlobPreset.Collapse.Plan
import GlobPreset.Emit.Order
import GlobPreset.Selection.Normalize

/-!
# Compilation

A selection becomes a short pattern list. Each level has several plans; every one is run and
brought into stored order, and the shortest list wins, the first one if there are several. The
plans of a level include those of the levels below it, so that more effort is never worse.

## Main definitions

* `Level.plans` — the plans of a level.
* `Compilation` — a pattern list with the record of how it came about.
* `Engine.optimize` — the best list of a level.
* `Compile.outcome`, `Compile.warnings`, `compileSelection` — the compilation of a selection.

## Main results

* `Compile.recallScan_map` — scans that are looked up do not differ from new ones.
-/

set_option autoImplicit false

namespace GlobPreset

/-! ### Plans -/

namespace RulePlan

/-- Whole directories only. -/
def minimal : RulePlan := ⟨"minimal".toText, some .minimal, [.fullDirectory]⟩

/-- Directories, then extensions. -/
def balanced : RulePlan :=
  ⟨"balanced".toText, some .balanced, [.fullDirectory, .nearFullExclusion, .directoryExtension]⟩

/-- Extensions before exclusions. -/
def balancedExtensionFirst : RulePlan :=
  ⟨"balanced/extension-first".toText, some .balanced,
    [.fullDirectory, .directoryExtension, .nearFullExclusion]⟩

/-- Extensions of the whole project first. -/
def aggressiveGlobalFirst : RulePlan :=
  ⟨"aggressive/global-first".toText, some .aggressive,
    [.globalExtension, .fullDirectory, .nearFullExclusion, .directoryExtension]⟩

/-- Extensions of the whole project last. -/
def aggressive : RulePlan :=
  ⟨"aggressive".toText, some .aggressive,
    [.fullDirectory, .nearFullExclusion, .directoryExtension, .globalExtension]⟩

/-- Extensions before exclusions, those of the whole project last. -/
def aggressiveExtensionFirst : RulePlan :=
  ⟨"aggressive/extension-first".toText, some .aggressive,
    [.fullDirectory, .directoryExtension, .nearFullExclusion, .globalExtension]⟩

end RulePlan

/-- The plans of a level, those of the most effort first. -/
def Level.plans : Level → List RulePlan
  | minimal => [.minimal]
  | balanced => [.balanced, .balancedExtensionFirst, .minimal]
  | aggressive =>
    [.aggressiveGlobalFirst, .aggressive, .aggressiveExtensionFirst, .balanced,
      .balancedExtensionFirst, .minimal]

/-! ### Results -/

/-- How many patterns stand for how many files. -/
structure CompilationStats where
  /-- The number of selected files. -/
  inputFiles : Nat
  /-- The number of patterns. -/
  finalPatterns : Nat
  /-- The number of entries that the list is shorter by. -/
  savedPatterns : Nat
deriving DecidableEq, Repr

/-- A pattern list with the record of how it came about. -/
structure Compilation where
  /-- The effort. -/
  level : Level
  /-- The patterns in stored order. -/
  patterns : List Text
  /-- The steps of the run and the merges. -/
  applied : List Application
  /-- How many patterns stand for how many files. -/
  stats : CompilationStats
deriving DecidableEq, Repr

namespace Compilation

/-- The compilation of nothing. -/
def empty (level : Level) : Compilation := ⟨level, [], [], ⟨0, 0, 0⟩⟩

/-- The patterns that are no exclusions. -/
def includes (c : Compilation) : List Text := c.patterns.filter (fun p => !isExcluded p)

/-- The exclusions, without their mark. -/
def excludes (c : Compilation) : List Text := (c.patterns.filter isExcluded).map (·.drop 1)

/-- The stored form: one pattern a line. -/
def toText (c : Compilation) : Text :=
  if c.patterns.isEmpty then [] else Text.joinWith [.of '\n'] c.patterns ++ [.of '\n']

end Compilation

/-! ### The best plan -/

namespace Engine

/-- The stored list of one plan, with its steps and merges. -/
def candidate (e : Engine) (braces : Bool) (ignore : IgnoreRules) (plan : RulePlan) :
    Merge.Outcome :=
  let run := e.run plan
  let emitted := emit braces ignore e.policy run.patterns
  ⟨emitted.patterns, run.applied ++ emitted.applied⟩

/-- The shorter of two lists, the first one if they are equally long. -/
def shorter (a b : Merge.Outcome) : Merge.Outcome :=
  if b.patterns.length < a.patterns.length then b else a

/-- The shortest list among those of some plans; without plans, the literal patterns. -/
def best (e : Engine) (braces : Bool) (ignore : IgnoreRules) : List RulePlan → Merge.Outcome
  | [] => ⟨e.literals .start, []⟩
  | plan :: rest =>
    (rest.map (e.candidate braces ignore)).foldl shorter (e.candidate braces ignore plan)

/-- The best list of a level. Braces are made only at the most effort. -/
def optimize (e : Engine) (ignore : IgnoreRules) (level : Level) : Compilation :=
  let best := e.best (level == .aggressive) ignore level.plans
  { level
    patterns := best.patterns
    applied := best.applied
    stats := ⟨e.selection.length, best.patterns.length,
      e.selection.length - best.patterns.length⟩ }

/-- The directories that the plans of a level ask to be scanned. -/
def requestsOfLevel (e : Engine) (level : Level) : List Text :=
  level.plans.flatMap (fun plan => e.requestsOf (e.thresholdOf plan.level) plan.rules .start)

end Engine

/-! ### Selections -/

namespace Compile

/-- The paths of a selection with different keys; of two with one key, the first is kept. -/
def distinctPaths (policy : CasePolicy) (paths : List Text) : List Text :=
  match policy with
  | .sensitive => paths
  | .insensitive => go paths
where
  /-- Keeps the first path of each key. -/
  go : List Text → List Text
    | [] => []
    | p :: rest => p :: (go rest).filter (fun q => decide (q.fold ≠ p.fold))

/-- The paths to be compiled. -/
def pathsOf (context : Context) (selection : List Text) : Except Fault (List Text) :=
  ((Selection.normalize selection).map (distinctPaths context.policy)).mapError .unsafePath

/-- The scanner of a compilation, for a project whose path can be resolved. -/
def scanner (fs : FileSystem) (root : Text) (context : Context) (ignore : IgnoreRules)
    (paths : List Text) : Except Fault Scanner :=
  match fs.refusal? root with
  | none => .ok ⟨fs, root, paths.map context.policy.key, ignore, context.policy⟩
  | some e => .error (.file e)

/-- Looks a scan up among those that are known already. -/
def recallScan (known : List (Text × Option DirectoryScan)) (scan? : Text → Option DirectoryScan)
    (directory : Text) : Option DirectoryScan :=
  match lookup? directory known with
  | some scan => scan
  | none => scan? directory

/-- What is looked up among scans of the same tree is what a new scan gives. -/
theorem recallScan_map (scan? : Text → Option DirectoryScan) (directories : List Text)
    (directory : Text) :
    recallScan (directories.map (fun d => (d, scan? d))) scan? directory = scan? directory := by
  unfold recallScan
  induction directories with
  | nil => rfl
  | cons d rest ih =>
    by_cases h : d = directory
    · simp [lookup?, h]
    · simpa [lookup?, h] using ih

/-- The engine of a compilation. The project and the candidates are scanned once. -/
def engine (s : Scanner) (context : Context) (paths : List Text) : Except Fault Engine := do
  let e ← (Engine.ofSelection context s.scan? paths).mapError .conflict
  let known := ([] :: e.candidates).map (fun d => (d, s.scan? d))
  return { e with scan? := recallScan known s.scan? }

/-- The compilation of a selection. A level always looks for whole directories, so a selection
with the project as a directory is refused. -/
def outcome (fs : FileSystem) (root : Text) (context : Context) (level : Level)
    (selection : List Text) : Except Fault Compilation := do
  let paths ← pathsOf context selection
  if paths.isEmpty then return .empty level
  let ignore ← context.ignoreRules.mapError .badLine
  let e ← engine (← scanner fs root context ignore paths) context paths
  if e.candidates.contains Engine.projectSegment then throw .projectScan
  return e.optimize ignore level

/-- What the scans of a compilation warn about, until a request is refused. -/
def warnings (fs : FileSystem) (root : Text) (context : Context) (level : Level)
    (selection : List Text) : List Warning :=
  match pathsOf context selection, context.ignoreRules with
  | .ok (path :: paths), .ok ignore =>
    match scanner fs root context ignore (path :: paths) with
    | .ok s =>
      match engine s context (path :: paths) with
      | .ok e =>
        s.warnings
          ((e.requestsOfLevel level).takeWhile (fun d => decide (d ≠ Engine.projectSegment)))
      | .error _ => []
    | .error _ => []
  | _, _ => []

/-! ### Plans in a row -/

/-- A plan whose rules are given by name. -/
structure NamedPlan where
  /-- The name of the plan. -/
  name : Text
  /-- The level whose threshold holds. -/
  level : Option Level
  /-- The names of the rules. -/
  rules : List Text
deriving DecidableEq, Repr

/-- The runs of plans in a row, and what their scans warn about. -/
def runPlans (s : Scanner) (e : Engine) (plans : List NamedPlan) :
    List (Except Fault Run) × List Warning :=
  let attempts := plans.map (fun plan => e.runNamed plan.name plan.level plan.rules)
  (attempts.map (fun a => a.outcome), s.warnings (attempts.flatMap (fun a => a.requests)))

end Compile

/-- Compiles a selection. -/
def compileSelection (fs : FileSystem) (root : Text) (context : Context) (level : Level)
    (selection : List Text) : Report Compilation :=
  ⟨Compile.outcome fs root context level selection,
    Compile.warnings fs root context level selection⟩

end GlobPreset
