import GlobPreset.Proofs.Preset.Readable

/-!
# What a preset selects that was made from inputs

A preset that is made from globs, directories and files selects what its inputs ask for: each file
among them that is there, what each glob selects when it is expanded alone, and what a walk finds
below each directory. One thing comes in between: what the files compile to may hold exclusions, and
these hold for the whole list. So a file that is asked for by a glob or a directory alone may be
left out; if there are no files among the inputs, none is.

## Main definitions

* `InputSorting.AsksByFile` — a file among the inputs asks for itself.

## Main results

* `Preset.expandText_render` — **what the text that is made selects**.
* `Preset.expandText_asked_of_create` — the same for what making a preset has written.
-/

set_option autoImplicit false

namespace GlobPreset

open GlobPreset.Path Text PatternList

/-- A file among the inputs that is a file of the project asks for itself. -/
def InputSorting.AsksByFile (s : InputSorting) (d : Disk) (project f : Text) : Prop :=
  ∃ i ∈ s.files, Preset.Keeps d project i ∧ Selection.normalPath i = f

namespace Preset

open Location Disk

variable {s s' : Session} {now : Timestamp} {l : Location} {name path : Text} {inputs : List Text}
  {level : Text} {context : Context} {ignore : IgnoreRules}

section Text

variable {d : Disk} {sorted : InputSorting} {kept : List Text} {result : Option Compilation}
  (hd : d.WellFormed) (hl : l.IsProper) (hord : d.fileSystem.HasOrdinaryFiles l.toText)
  (hpolicy : context.policy = .sensitive) (hignore : context.ignoreRules = .ok ignore)
  (hsorted : sorted = .of d.fileSystem l.toText (splitInputs inputs))
  (hfiles : ∀ i ∈ sorted.files, IsOrdinary (Selection.normalPath i))
  (h : Gathers d l.toText context sorted kept result)
include hd hl hord hpolicy hignore hsorted hfiles h

/-- What the files compile to selects the files that ask for themselves. -/
lemma selects_compiled (f : Text) :
    (ofRaw (compiled result)).Selects .sensitive d.fileSystem l.toText ignore f ↔
      sorted.AsksByFile d l.toText f := by
  obtain ⟨-, -, hselects, -⟩ := compiled_spec hd hl hord hpolicy hsorted h hfiles
  rw [hselects ignore hignore, InputSorting.AsksByFile]
  simp only [h.mem_kept, and_assoc]

/-- What the files compile to excludes nothing unless it includes something. -/
lemma includes_compiled_ne_nil (hexcludes : (ofRaw (compiled result)).excludes ≠ []) :
    (ofRaw (compiled result)).includes ≠ [] := by
  rcases h.compiled with ⟨-, rfl⟩ | ⟨hne, -⟩
  · exact absurd rfl hexcludes
  · obtain ⟨i, hi⟩ := List.exists_mem_of_ne_nil _ hne
    obtain ⟨hfile, hkeeps⟩ := (h.mem_kept i).1 hi
    obtain ⟨⟨p, hp, -⟩, -⟩ :=
      (selects_compiled hd hl hord hpolicy hignore hsorted hfiles h _).2 ⟨i, hfile, hkeeps, rfl⟩
    exact List.ne_nil_of_mem hp

variable (hname : name.any isLineBoundary = false) (hplain : sorted.IsPlain)
include hname hplain

variable (now) in
/-- **What the text that is made selects**: the files that ask for themselves, and what a glob or a
directory asks for, unless it is excluded by what the files compile to. -/
theorem expandText_render :
    ∃ files, (expandText d.fileSystem l.toText context (PresetFile.render name
        (sorted.lines (compiled result)) (some (originOf sorted kept.length result)) now)).outcome =
          .ok files ∧
      ∀ f, f ∈ files ↔ sorted.AsksByFile d l.toText f ∨
        sorted.AsksByPattern d.fileSystem l.toText context ignore f ∧
          ∀ x ∈ (ofRaw (compiled result)).excludes, ∀ a ∈ Pattern.alternatives x,
            Pattern.finds a f = false := by
  obtain ⟨hstored, hreadable, -, hrecords⟩ := compiled_spec hd hl hord hpolicy hsorted h hfiles
  have hincludes := includes_compiled_ne_nil hd hl hord hpolicy hignore hsorted hfiles h
  have horigin : ∀ o ∈ some (originOf sorted kept.length result), o.IsOneLine := by
    intro o ho
    obtain rfl := Option.mem_some_iff.1 ho
    exact isOneLine_originOf sorted kept.length hrecords
  have hlines : ∀ line ∈ sorted.lines (compiled result), line.any isLineBoundary = false := by
    intro line hline
    rcases InputSorting.mem_lines.1 hline with hglob | ⟨i, hi, rfl⟩ | hcompiled
    · exact (hplain.glob line hglob).1.noBoundary
    · exact (hplain.isStored_ofDirectory hi).noBoundary
    · exact (hstored line hcompiled).noBoundary
  have hparse : parse (PresetFile.render name (sorted.lines (compiled result))
      (some (originOf sorted kept.length result)) now) = sorted.list (compiled result) :=
    PresetFile.parse_render hname horigin hlines
  obtain ⟨files, hexpand, -, -, hmem⟩ :=
    @Expand.outcome_eq_ok d.fileSystem l.toText ignore context _ hignore
      (hpolicy ▸ hplain.isReadable_list hstored hincludes hreadable)
  refine ⟨files, ?_, fun f => ?_⟩
  · rw [← hexpand, ← hparse]
    rfl
  · rw [hmem, hpolicy, hplain.selects_list (isProject hd hl) hpolicy hignore hstored hincludes,
      selects_compiled hd hl hord hpolicy hignore hsorted hfiles h]

end Text

/-- **What making a preset has written** selects what the inputs ask for in the project as it was:
the files among them, and what globs and directories ask for, unless it is excluded. Nothing is
excluded if no file among the inputs is there. -/
theorem expandText_asked_of_create (h : s.disk.WellFormed) (hl : l.IsProper)
    (hproject : s.disk.kind? l.toText = some .directory)
    (hord : s.disk.fileSystem.HasOrdinaryFiles l.toText) (hpolicy : context.policy = .sensitive)
    (hignore : context.ignoreRules = .ok ignore) (hname : name.any isLineBoundary = false)
    (hsome : splitInputs inputs ≠ []) {sorted : InputSorting}
    (hsorted : sorted = .of s.disk.fileSystem l.toText (splitInputs inputs))
    (hplain : sorted.IsPlain) (hfiles : ∀ i ∈ sorted.files, IsOrdinary (Selection.normalPath i))
    (hcreate : (create now l.toText name inputs level context).run s = (.ok path, s')) :
    ∃ text files rejected, s'.disk.read path = .ok text ∧
      (expandText s.disk.fileSystem l.toText context (unifyNewlines text)).outcome = .ok files ∧
      (∀ f, f ∈ files ↔ sorted.AsksByFile s.disk l.toText f ∨
        sorted.AsksByPattern s.disk.fileSystem l.toText context ignore f ∧
          ∀ x ∈ rejected, ∀ a ∈ Pattern.alternatives x, Pattern.finds a f = false) ∧
      ((∀ f, ¬ sorted.AsksByFile s.disk l.toText f) → rejected = []) := by
  obtain ⟨text, htext, hread⟩ := read_of_create h (by rwa [plainPath_toText hl]) hcreate
  obtain ⟨hnone, -⟩ | ⟨sorted', kept, result, hsorted', hgathers, rfl⟩ := htext
  · exact absurd hnone hsome
  obtain rfl : sorted' = sorted := hsorted'.trans hsorted.symm
  obtain ⟨files, hexpand, hmem⟩ := expandText_render now h hl hord hpolicy hignore hsorted
    hfiles hgathers hname hplain
  refine ⟨_, files, _, hread, ?_, hmem, fun hnofile => ?_⟩
  · rw [expandText_unifyNewlines, hexpand]
  · rcases hgathers.compiled with ⟨-, rfl⟩ | ⟨hne, -⟩
    · rfl
    · obtain ⟨i, hi⟩ := List.exists_mem_of_ne_nil _ hne
      obtain ⟨hfile, hkeeps⟩ := (hgathers.mem_kept i).1 hi
      exact absurd ⟨i, hfile, hkeeps, rfl⟩ (hnofile _)

end Preset

end GlobPreset
