import GlobPreset.Preset.Workflow
import GlobPreset.Proofs.Compile.RoundTrip
import GlobPreset.Proofs.Preset.Paths

/-!
# What inputs ask for

A glob among the inputs asks for the files that it selects when it is expanded alone, a directory
for the files that a walk finds below it, and a file for itself. In the list of a preset each of
them has its own patterns, and what such a pattern selects there is what the input asks for, as far
as the exclusions of the list leave it.

## Main definitions

* `Pattern.SelectsIn` — a pattern of a list selects a file, exclusions apart.
* `InputSorting.AsksByPattern` — a glob or a directory asks for a file.
* `InputSorting.IsPlain` — inputs that mean in a list what they mean alone.

## Main results

* `Pattern.selectsIn_ofDirectory` — the pattern of a directory selects what is found below it.
* `InputSorting.IsPlain.mem_list` — the patterns of a list, input by input.
* `InputSorting.IsPlain.selects_list` — **what the list of a preset selects**.
-/

set_option autoImplicit false

namespace GlobPreset

open GlobPreset.Path Text

variable {fs : FileSystem} {project : Text} {context : Context} {ignore : IgnoreRules}

/-! ### Patterns -/

/-- A pattern selects a file, exclusions apart. -/
def Pattern.SelectsIn (fs : FileSystem) (root : Text) (ignore : IgnoreRules)
    (pattern f : Text) : Prop :=
  ∃ a ∈ Pattern.alternatives pattern, Pattern.finds a f = true ∧
    f ∈ Walk.files fs ignore root (Pattern.literalBase a)

/-- The path of a directory that is given as an input. -/
def Pattern.directoryPath (input : Text) : Text :=
  dropDotSlash (dropEndSlashes (toSlashes input))

/-- **The pattern of a directory** selects what a walk finds below it. -/
lemma Pattern.selectsIn_ofDirectory (hp : fs.IsProject project) {input : Text}
    (htame : IsTame (directoryPath input)) (f : Text) :
    SelectsIn fs project ignore (ofDirectory input) f ↔
      f ∈ Walk.files fs ignore project (directoryPath input) ∧
        ∃ rel, f = directoryPath input ++ .of '/' :: rel := by
  have hproper : (Glob.tree (directoryPath input)).IsProper := htame
  have hplain : ∀ {f}, f ∈ Walk.files fs ignore project (directoryPath input) →
      Wildmatch.RuleSet.plainPath f = f := by
    intro f hf
    rw [← ofSegments_segments (directoryPath input)] at hf
    obtain ⟨rel, rfl, hn, hne⟩ := Walk.areNames_of_mem_files hp htame.areNames hf
    exact plainPath_of_isPlain (isPlain_ofSegments hne hn)
  have halone : alternatives (ofDirectory input) = [ofDirectory input] :=
    hproper.alternatives_text
  have hbase : literalBase (ofDirectory input) = directoryPath input := hproper.literalBase_text
  simp only [SelectsIn, halone, List.mem_singleton, exists_eq_left, hbase]
  constructor
  · rintro ⟨hfind, hf⟩
    obtain ⟨rel, hrel⟩ := ((finds_directoryPattern htame).2 f).1 hfind
    exact ⟨hf, rel, by rw [← hplain hf, hrel]⟩
  · rintro ⟨hf, rel, hrel⟩
    exact ⟨((finds_directoryPattern htame).2 f).2 ⟨rel, by rw [hplain hf, hrel]⟩, hf⟩

namespace PatternList

/-! ### Globs -/

/-- A line that is read as no exclusion. -/
structure IsGlobLine (line : Text) : Prop where
  /-- It is not empty. -/
  ne_nil : line ≠ []
  /-- No line ends in it. -/
  noBoundary : line.any isLineBoundary = false
  /-- It starts with no blank and no exclusion mark. -/
  starts : ∀ c ∈ line.head?, isBlank c = false ∧ c ≠ .of '!'

namespace IsGlobLine

variable {line : Text}

/-- It rejects nothing. -/
lemma readLine?_ne_rejects (h : IsGlobLine line) (x : Text) :
    readLine? line ≠ some (.rejects x) := by
  obtain ⟨c, rest, rfl⟩ := List.exists_cons_of_ne_nil h.ne_nil
  obtain ⟨hblank, hmark⟩ := h.starts c rfl
  obtain ⟨more, hmore⟩ := stripLine_mark hblank rest
  rw [readLine?, hmore]
  split
  · rename_i heq
    cases heq
  · simp
  · rename_i heq
    cases heq
    exact absurd rfl hmark
  · simp

/-- Read alone, it is the list of what it is read as. -/
lemma parse_eq (h : IsGlobLine line) :
    (parse line).excludes = [] ∧
      ∀ p, p ∈ (parse line).includes ↔ readLine? line = some (.selects p) := by
  have hrejected : ([line].filterMap readLine?).filterMap Entry.rejected? = [] := by
    refine List.eq_nil_iff_forall_not_mem.2 fun x hx => ?_
    obtain ⟨l, hl, hread⟩ := mem_rejected.1 hx
    rw [List.mem_singleton.1 hl] at hread
    exact h.readLine?_ne_rejects x hread
  rw [parse, lines_eq_singleton h.ne_nil h.noBoundary, ofEntries_eq (.inr hrejected)]
  refine ⟨hrejected, fun p => ?_⟩
  rw [mem_selected]
  simp

end IsGlobLine

end PatternList

/-! ### The list of a preset -/

namespace InputSorting

open PatternList

variable {s : InputSorting} {compiled : List Text}

/-- A glob or a directory among the inputs asks for the file. -/
def AsksByPattern (s : InputSorting) (fs : FileSystem) (project : Text) (context : Context)
    (ignore : IgnoreRules) (f : Text) : Prop :=
  (∃ g ∈ s.patterns, ∃ files, (expandText fs project context g).outcome = .ok files ∧
    f ∈ files) ∨
  ∃ i ∈ s.directories, f ∈ Walk.files fs ignore project (Pattern.directoryPath i) ∧
    ∃ rel, f = Pattern.directoryPath i ++ .of '/' :: rel

/-- Globs and directories that mean in a list what they mean alone. -/
structure IsPlain (s : InputSorting) : Prop where
  /-- A glob is a line, and its patterns can be read. -/
  glob : ∀ g ∈ s.patterns, IsGlobLine g ∧ (parse g).IsReadable .sensitive
  /-- A directory is given by a tame path. -/
  directory : ∀ i ∈ s.directories, IsTame (Pattern.directoryPath i)

/-- The lines of a preset: the globs, the patterns of the directories and those of the files. -/
def lines (s : InputSorting) (compiled : List Text) : List Text :=
  dedupe (s.patterns ++ s.directories.map Pattern.ofDirectory ++ compiled)

/-- The list of a preset. -/
def list (s : InputSorting) (compiled : List Text) : PatternList :=
  ofEntries ((s.lines compiled).filterMap readLine?)

/-- The lines of a preset are those of its globs, of its directories and of its files. -/
lemma mem_lines {l : Text} :
    l ∈ s.lines compiled ↔ l ∈ s.patterns ∨ (∃ i ∈ s.directories, Pattern.ofDirectory i = l) ∨
      l ∈ compiled := by
  simp only [lines, mem_dedupe, List.mem_append, List.mem_map, or_assoc]

/-- The pattern of a directory is stored as it is. -/
lemma IsPlain.isStored_ofDirectory (h : s.IsPlain) {i : Text} (hi : i ∈ s.directories) :
    IsStored (Pattern.ofDirectory i) :=
  Glob.IsProper.isStored_text (g := .tree _) (h.directory i hi)

/-- The entries of the lines of a preset. -/
lemma IsPlain.readLine?_lines (h : s.IsPlain) (hcompiled : ∀ l ∈ compiled, IsStoredLine l) :
    (∀ p, (∃ l ∈ s.lines compiled, readLine? l = some (.selects p)) ↔
      (∃ g ∈ s.patterns, p ∈ (parse g).includes) ∨
        (∃ i ∈ s.directories, Pattern.ofDirectory i = p) ∨ p ∈ (ofRaw compiled).includes) ∧
    ∀ x, (∃ l ∈ s.lines compiled, readLine? l = some (.rejects x)) ↔
      x ∈ (ofRaw compiled).excludes := by
  have hraw := filterMap_readLine? hcompiled
  have hselected : ∀ p, p ∈ (ofRaw compiled).includes ↔
      ∃ l ∈ compiled, readLine? l = some (.selects p) := by
    intro p
    rw [← mem_selected, hraw, filterMap_selected?]
  have hrejected : ∀ x, x ∈ (ofRaw compiled).excludes ↔
      ∃ l ∈ compiled, readLine? l = some (.rejects x) := by
    intro x
    rw [← mem_rejected, hraw, filterMap_rejected?]
  constructor
  · intro p
    rw [hselected]
    constructor
    · rintro ⟨l, hl, hread⟩
      rcases mem_lines.1 hl with hl | ⟨i, hi, rfl⟩ | hl
      · exact .inl ⟨l, hl, ((h.glob l hl).1.parse_eq.2 p).2 hread⟩
      · rw [(h.isStored_ofDirectory hi).readLine?_eq] at hread
        cases hread
        exact .inr (.inl ⟨i, hi, rfl⟩)
      · exact .inr (.inr ⟨l, hl, hread⟩)
    · rintro (⟨g, hg, hp⟩ | ⟨i, hi, rfl⟩ | ⟨l, hl, hread⟩)
      · exact ⟨g, mem_lines.2 (.inl hg), ((h.glob g hg).1.parse_eq.2 p).1 hp⟩
      · exact ⟨_, mem_lines.2 (.inr (.inl ⟨i, hi, rfl⟩)), (h.isStored_ofDirectory hi).readLine?_eq⟩
      · exact ⟨l, mem_lines.2 (.inr (.inr hl)), hread⟩
  · intro x
    rw [hrejected]
    constructor
    · rintro ⟨l, hl, hread⟩
      rcases mem_lines.1 hl with hl | ⟨i, hi, rfl⟩ | hl
      · exact absurd hread ((h.glob l hl).1.readLine?_ne_rejects x)
      · rw [(h.isStored_ofDirectory hi).readLine?_eq] at hread
        cases hread
      · exact ⟨l, hl, hread⟩
    · rintro ⟨l, hl, hread⟩
      exact ⟨l, mem_lines.2 (.inr (.inr hl)), hread⟩

/-- **The list of a preset** holds the patterns of its inputs and the exclusions of its files. -/
lemma IsPlain.mem_list (h : s.IsPlain) (hcompiled : ∀ l ∈ compiled, IsStoredLine l)
    (hincludes : (ofRaw compiled).excludes ≠ [] → (ofRaw compiled).includes ≠ []) :
    (∀ p, p ∈ (s.list compiled).includes ↔ (∃ g ∈ s.patterns, p ∈ (parse g).includes) ∨
      (∃ i ∈ s.directories, Pattern.ofDirectory i = p) ∨ p ∈ (ofRaw compiled).includes) ∧
    ∀ x, x ∈ (s.list compiled).excludes ↔ x ∈ (ofRaw compiled).excludes := by
  obtain ⟨hselects, hrejects⟩ := h.readLine?_lines hcompiled
  have hplain : ((s.lines compiled).filterMap readLine?).filterMap Entry.selected? ≠ [] ∨
      ((s.lines compiled).filterMap readLine?).filterMap Entry.rejected? = [] := by
    by_cases hnil : (ofRaw compiled).excludes = []
    · refine .inr (List.eq_nil_iff_forall_not_mem.2 fun x hx => ?_)
      have hmem := (hrejects x).1 (mem_rejected.1 hx)
      rw [hnil] at hmem
      cases hmem
    · obtain ⟨p, hp⟩ := List.exists_mem_of_ne_nil _ (hincludes hnil)
      exact .inl (List.ne_nil_of_mem (mem_selected.2 ((hselects p).2 (.inr (.inr hp)))))
  rw [list, ofEntries_eq hplain]
  exact ⟨fun p => mem_selected.trans (hselects p), fun x => mem_rejected.trans (hrejects x)⟩

/-- The list of a preset can be read. -/
lemma IsPlain.isReadable_list (h : s.IsPlain) (hcompiled : ∀ l ∈ compiled, IsStoredLine l)
    (hincludes : (ofRaw compiled).excludes ≠ [] → (ofRaw compiled).includes ≠ [])
    (hreadable : (ofRaw compiled).IsReadable .sensitive) :
    (s.list compiled).IsReadable .sensitive := by
  obtain ⟨hselects, hrejects⟩ := h.mem_list hcompiled hincludes
  refine isReadable_iff.2 fun p hp => ?_
  rcases List.mem_append.1 hp with hp | hp
  · rcases (hselects p).1 hp with ⟨g, hg, hp⟩ | ⟨i, hi, rfl⟩ | hp
    · exact isReadable_iff.1 (h.glob g hg).2 p (List.mem_append_left _ hp)
    · have hproper : (Glob.tree (Pattern.directoryPath i)).IsProper := h.directory i hi
      refine ⟨hproper.readings_safe, fun a ha => ?_⟩
      have halone : a ∈ [Pattern.ofDirectory i] := hproper.alternatives_text ▸ ha
      rw [List.mem_singleton.1 halone]
      exact (Pattern.finds_directoryPattern (h.directory i hi)).1
    · exact isReadable_iff.1 hreadable p (List.mem_append_left _ hp)
  · exact isReadable_iff.1 hreadable p (List.mem_append_right _ ((hrejects p).1 hp))

/-- **What the list of a preset selects**: what the files compile to selects its own, and the globs
and directories select what they ask for, unless it is excluded. -/
theorem IsPlain.selects_list (hp : fs.IsProject project) (hpolicy : context.policy = .sensitive)
    (hignore : context.ignoreRules = .ok ignore) (h : s.IsPlain)
    (hcompiled : ∀ l ∈ compiled, IsStoredLine l)
    (hincludes : (ofRaw compiled).excludes ≠ [] → (ofRaw compiled).includes ≠ []) (f : Text) :
    (s.list compiled).Selects .sensitive fs project ignore f ↔
      (ofRaw compiled).Selects .sensitive fs project ignore f ∨
        s.AsksByPattern fs project context ignore f ∧
          ∀ x ∈ (ofRaw compiled).excludes, ∀ a ∈ Pattern.alternatives x,
            Pattern.finds a f = false := by
  obtain ⟨hselects, hrejects⟩ := h.mem_list hcompiled hincludes
  have hglobs : ∀ g ∈ s.patterns,
    (∃ p ∈ (parse g).includes, Pattern.SelectsIn fs project ignore p f) ↔
      ∃ files, (expandText fs project context g).outcome = .ok files ∧ f ∈ files := by
    intro g hg
    obtain ⟨hline, hreadable⟩ := h.glob g hg
    obtain ⟨files, hfiles, -, -, hmem⟩ :
        ∃ files, Expand.outcome fs project context (parse g) = .ok files ∧
          files.Pairwise (fun s t => Text.le s t = true) ∧ files.Nodup ∧
          ∀ f, f ∈ files ↔ (parse g).Selects .sensitive fs project ignore f :=
      hpolicy ▸ Expand.outcome_eq_ok hignore (hpolicy ▸ hreadable)
    have halone : (parse g).Selects .sensitive fs project ignore f ↔
        ∃ p ∈ (parse g).includes, Pattern.SelectsIn fs project ignore p f := by
      unfold PatternList.Selects
      rw [hline.parse_eq.1]
      simp [Pattern.SelectsIn]
    rw [← halone, ← hmem]
    constructor
    · exact fun hf => ⟨files, hfiles, hf⟩
    · rintro ⟨files', hfiles', hf⟩
      cases hfiles.symm.trans hfiles'
      exact hf
  have hasks : (∃ p, ((∃ g ∈ s.patterns, p ∈ (parse g).includes) ∨
      ∃ i ∈ s.directories, Pattern.ofDirectory i = p) ∧ Pattern.SelectsIn fs project ignore p f) ↔
        s.AsksByPattern fs project context ignore f := by
    constructor
    · rintro ⟨p, ⟨g, hg, hp⟩ | ⟨i, hi, rfl⟩, hf⟩
      · exact .inl ⟨g, hg, (hglobs g hg).1 ⟨p, hp, hf⟩⟩
      · exact .inr ⟨i, hi, (Pattern.selectsIn_ofDirectory hp (h.directory i hi) f).1 hf⟩
    · rintro (⟨g, hg, hf⟩ | ⟨i, hi, hf⟩)
      · obtain ⟨p, hp, hf⟩ := (hglobs g hg).2 hf
        exact ⟨p, .inl ⟨g, hg, hp⟩, hf⟩
      · exact ⟨_, .inr ⟨i, hi, rfl⟩,
          (Pattern.selectsIn_ofDirectory hp (h.directory i hi) f).2 hf⟩
  have hsplit : (∃ p ∈ (s.list compiled).includes, Pattern.SelectsIn fs project ignore p f) ↔
      (∃ p ∈ (ofRaw compiled).includes, Pattern.SelectsIn fs project ignore p f) ∨
        s.AsksByPattern fs project context ignore f := by
    rw [← hasks]
    constructor
    · rintro ⟨p, hp, hf⟩
      rcases (hselects p).1 hp with hp | hp | hp
      · exact .inr ⟨p, .inl hp, hf⟩
      · exact .inr ⟨p, .inr hp, hf⟩
      · exact .inl ⟨p, hp, hf⟩
    · rintro (⟨p, hp, hf⟩ | ⟨p, hp, hf⟩)
      · exact ⟨p, (hselects p).2 (.inr (.inr hp)), hf⟩
      · exact ⟨p, (hselects p).2 (hp.imp_right .inl), hf⟩
  have hexcludes : (∀ x ∈ (s.list compiled).excludes, ∀ a ∈ Pattern.alternatives x,
      Pattern.finds a f = false) ↔
        ∀ x ∈ (ofRaw compiled).excludes, ∀ a ∈ Pattern.alternatives x, Pattern.finds a f = false :=
    forall_congr' fun x => imp_congr_left (hrejects x)
  exact (and_congr hsplit hexcludes).trans or_and_right

end InputSorting

end GlobPreset
