import GlobPreset.Proofs.Pattern.StoredLiterals
import GlobPreset.Proofs.Preset.Leaving
import GlobPreset.Proofs.Preset.Readers

/-!
# Reading a preset that was made

Making a preset checks its inputs in the spelling in which they are given, and reading it checks the
patterns that are read from its lines. Between the two, exclusion marks and `./` are dropped,
directories and files are escaped, and files are compiled. The check of the reader accepts what that
of the writer accepted as long as a glob is read as it was checked, and the names of directories and
files are ordinary. A name with two dots in front of an escaped character is refused when it is
read.

## Main definitions

* `Pattern.IsReadAsChecked` — what is read of a glob is what was checked.
* `InputSorting.IsReadAsChecked` — inputs whose patterns are.

## Main results

* `PatternList.checkSafe_ofEntries` — a list is safe if its entries are.
* `Preset.checkSafe_newText` — **the text that a preset is made with is safe**.
* `Preset.read_of_create` — what making a preset has written is the text that it was made with.
* `Preset.expandText_of_create` — what making a preset has written is not refused when it is
  expanded.
* `Preset.not_expandText_of_create` — a preset that is made and refused.
-/

set_option autoImplicit false

namespace GlobPreset

open GlobPreset.Path Text PatternList

/-! ### Lists -/

/-- What is in front of a text is in front of its first line. -/
lemma Text.lines_append {front rest first : Text} {more : List Text}
    (hfront : front.any isLineBoundary = false) (hrest : lines rest = first :: more) :
    lines (front ++ rest) = (front ++ first) :: more := by
  induction front with
  | nil => exact hrest
  | cons c front ih =>
    rw [List.any_cons, Bool.or_eq_false_iff] at hfront
    rw [List.cons_append, lines_cons_of_not hfront.1, ih hfront.2]
    rfl

namespace PatternList

/-- No reading of the pattern is unsafe. -/
def IsSafe (pattern : Text) : Prop := ∀ r ∈ Pattern.readings pattern, unsafeCause? r = none

/-- **A list is safe if its entries are.** -/
lemma checkSafe_ofEntries {entries : List Entry} (h : ∀ e ∈ entries, IsSafe e.text) :
    (ofEntries entries).checkSafe = .ok () := by
  have hselected : ∀ p ∈ entries.filterMap Entry.selected?, IsSafe p := by
    intro p hp
    obtain ⟨e, he, hsel⟩ := List.mem_filterMap.1 hp
    cases e with
    | selects q =>
      cases hsel
      exact h _ he
    | rejects q => cases hsel
  have hrejected : ∀ p ∈ entries.filterMap Entry.rejected?, IsSafe p := by
    intro p hp
    obtain ⟨e, he, hrej⟩ := List.mem_filterMap.1 hp
    cases e with
    | selects q => cases hrej
    | rejects q =>
      cases hrej
      exact h _ he
  have heverything : IsSafe everything := by
    unfold IsSafe
    decide
  rw [checkSafe_eq_ok, ofEntries]
  dsimp only
  rw [List.forall_mem_append]
  refine ⟨?_, hrejected⟩
  split
  · exact List.forall_mem_singleton.2 heverything
  · exact hselected

end PatternList

/-- Reading carriage returns as line feeds does not change what a list is expanded to. -/
lemma expandText_unifyNewlines (fs : FileSystem) (root : Text) (context : Context) (text : Text) :
    expandText fs root context (unifyNewlines text) = expandText fs root context text := by
  rw [expandText, expandText, parse, parse, lines_unifyNewlines]

/-- Patterns pass the check if all their readings are safe. -/
lemma Pattern.checkAllSafe_eq_ok {patterns : List Text} :
    checkAllSafe patterns = .ok () ↔ ∀ p ∈ patterns, IsSafe p := by
  have hsafe : (PatternList.mk patterns []).checkSafe = .ok () ↔ _ := checkSafe_eq_ok
  rwa [List.append_nil, PatternList.checkSafe, List.append_nil] at hsafe

/-- Inputs pass the check of the writer if they are safe behind their exclusion marks. -/
lemma Pattern.checkInputsSafe_eq_ok {inputs : List Text} :
    checkInputsSafe inputs = .ok () ↔ ∀ i ∈ inputs, IsSafe (i.dropWhile (· == .of '!')) := by
  rw [checkInputsSafe, checkAllSafe_eq_ok, List.forall_mem_map]

/-! ### Globs -/

/-- Behind an exclusion mark, if there is one, the glob starts with no mark, no blank and no `./`.
So what is read of it is what was checked. -/
structure Pattern.IsReadAsChecked (glob : Text) : Prop where
  /-- No line ends in it. -/
  noBoundary : glob.any isLineBoundary = false
  /-- What is behind the mark. -/
  body : ∃ body, (glob = body ∨ glob = .of '!' :: body) ∧
    (∀ c ∈ body.head?, isBlank c = false ∧ c ≠ .of '!') ∧ ¬ [.of '.', .of '/'] <+: body

/-- **A glob that passes the check of the writer** passes that of the reader. -/
lemma Pattern.IsReadAsChecked.isSafe {glob : Text} (h : Pattern.IsReadAsChecked glob)
    (hlast : glob.getLast?.any isBlank = false)
    (hchecked : IsSafe (glob.dropWhile (· == .of '!'))) {e : PatternList.Entry}
    (he : readLine? glob = some e) :
    IsSafe e.text := by
  obtain ⟨body, hglob, hstarts, hdots⟩ := h.body
  have hdrop : glob.dropWhile (· == .of '!') = body := by
    have hbody : body.dropWhile (· == .of '!') = body := by
      cases body with
      | nil => rfl
      | cons c rest => exact List.dropWhile_cons_of_neg (by simpa using (hstarts c rfl).2)
    rcases hglob with rfl | rfl
    · exact hbody
    · rw [List.dropWhile_cons_of_pos (by decide), hbody]
  rw [hdrop] at hchecked
  have hplain : dropDotSlash body = body := by
    unfold dropDotSlash
    split
    · exact absurd ⟨_, rfl⟩ hdots
    · rfl
  have hhead : body.head?.any isBlank = false := by
    cases body with
    | nil => rfl
    | cons c rest => exact (hstarts c rfl).1
  have hstrip : ∀ {t : Text}, t.head?.any isBlank = false → t.getLast?.any isBlank = false →
      stripLine t = t := by
    intro t hfirst hend
    rcases List.eq_nil_or_concat' t with rfl | ⟨front, c, rfl⟩
    · rfl
    · rw [List.getLast?_concat] at hend
      exact stripLine_eq_self hfirst (.inl ⟨front, c, rfl, hend⟩)
  rcases hglob with rfl | rfl
  · rw [readLine?, hstrip hhead hlast] at he
    split at he
    · cases he
    · cases he
    · exact absurd rfl (hstarts _ rfl).2
    · cases he
      rwa [PatternList.Entry.text, hplain]
  · have hbody : stripLine body = body := by
      refine hstrip hhead ?_
      cases body with
      | nil => rfl
      | cons c rest => rwa [List.getLast?_cons_cons] at hlast
    rw [readLine?, hstrip rfl hlast] at he
    simp only [hbody, hplain] at he
    split at he
    · cases he
    · cases he
      exact hchecked

/-! ### Inputs -/

/-- Inputs whose patterns are read as they were checked: globs with nothing in front that reading
drops, and directories and files with ordinary names. -/
structure InputSorting.IsReadAsChecked (s : InputSorting) : Prop where
  /-- The globs. -/
  glob : ∀ g ∈ s.patterns, Pattern.IsReadAsChecked g
  /-- The directories. -/
  directory : ∀ i ∈ s.directories, IsTame (Pattern.directoryPath i)
  /-- The files. -/
  file : ∀ i ∈ s.files, IsOrdinary (Selection.normalPath i)

namespace Preset

open Location Disk

/-- An input ends with no blank. -/
lemma getLast?_of_mem_splitInputs {inputs : List Text} {i : Text} (h : i ∈ splitInputs inputs) :
    (toSlashes i).getLast?.any isBlank = false := by
  obtain ⟨piece, -, rfl⟩ := List.mem_map.1 (List.mem_filter.1 h).1
  have hlast := getLast?_strip piece
  rw [toSlashes, List.getLast?_map]
  cases hend : (strip piece).getLast? with
  | none => rfl
  | some c =>
    rw [hend] at hlast
    have hc : isBlank c = false := hlast
    by_cases hback : c = .of '\\'
    · subst hback
      rfl
    · simpa [hback] using hc

section Made

variable {s s' : Session} {now : Timestamp} {l : Location} {name path text : Text}
  {inputs : List Text} {level : Text} {context : Context}

section Text

variable {d : Disk} {sorted : InputSorting} {kept : List Text} {result : Option Compilation}
  (hd : d.WellFormed) (hl : l.IsProper) (hord : d.fileSystem.HasOrdinaryFiles l.toText)
  (hpolicy : context.policy = .sensitive)
  (hsorted : sorted = .of d.fileSystem l.toText (splitInputs inputs))
  (h : Gathers d l.toText context sorted kept result)
include hd hl hord hpolicy hsorted h

/-- **What the files compile to** is stored as it is and can be read, its records are lines, and it
selects the files that are kept. -/
lemma compiled_spec (hfiles : ∀ i ∈ sorted.files, IsOrdinary (Selection.normalPath i)) :
    (∀ p ∈ compiled result, IsStoredLine p) ∧ (ofRaw (compiled result)).IsReadable .sensitive ∧
      (∀ ignore, context.ignoreRules = .ok ignore → ∀ f,
        (ofRaw (compiled result)).Selects .sensitive d.fileSystem l.toText ignore f ↔
          ∃ i ∈ kept, Selection.normalPath i = f) ∧
      ∀ c ∈ result, ∀ a ∈ c.applied, a.IsOneLine := by
  rcases h.compiled with ⟨rfl, rfl⟩ | ⟨hne, c, rfl, level, houtcome⟩
  · exact ⟨by simp [compiled], isReadable_iff.2 (by simp [compiled, ofRaw]),
      fun ignore _ f => by simp [compiled, ofRaw, PatternList.Selects], by simp⟩
  have hinput : ∀ i ∈ kept, checkSafe Selection.role i = .ok () ∧
      IsOrdinary (Selection.normalPath i) ∧ Keeps d l.toText i ∧ .of '\\' ∉ i := by
    intro i hi
    obtain ⟨hfile, hkeeps⟩ := (h.mem_kept i).1 hi
    refine ⟨h.safe i hfile, hfiles i hfile, hkeeps, ?_⟩
    rw [hsorted] at hfile
    obtain ⟨input, -, rfl⟩ := List.mem_map.1 (List.mem_filter.1 hfile).1
    exact backslash_not_mem_toSlashes input
  have hsel : d.fileSystem.IsSelection l.toText (kept.map Selection.normalPath) := by
    intro f hf
    obtain ⟨i, hi, rfl⟩ := List.mem_map.1 hf
    obtain ⟨hsafe, hordinary, hkeeps, hback⟩ := hinput i hi
    exact ⟨hordinary, (keeps_iff hl hsafe hback hordinary.toIsTame).1 hkeeps⟩
  rw [outcome_normalPath fun i hi => ⟨(hinput i hi).1, (hinput i hi).2.1.toIsTame⟩] at houtcome
  have hsome : kept.map Selection.normalPath ≠ [] := by simpa using hne
  obtain ⟨ignore, hignore⟩ := exists_ignoreRules_of_outcome hpolicy hsome hsel houtcome
  have hresolves := refusal?_of_outcome hpolicy hignore hsome hsel houtcome
  obtain ⟨c', hc', hlines, hreadable, hselects, hrecords⟩ :=
    Compile.outcome_spec (isProject hd hl) hord hresolves
      (hpolicy ▸ FileSystem.isToldApart_sensitive) hignore hsel hsome level
  obtain rfl : c' = c := Except.ok.inj (hc'.symm.trans houtcome)
  refine ⟨hlines, hpolicy ▸ hreadable, fun ignore' hignore' f => ?_,
    fun c hc => by cases hc; exact hrecords⟩
  obtain rfl : ignore = ignore' := Except.ok.inj (hignore.symm.trans hignore')
  rw [← hpolicy, ← List.mem_map]
  exact hselects f

variable (hplain : sorted.IsReadAsChecked)
include hplain

/-- **Every line below the header** stands for a safe pattern, if for any, and no line ends in it.
-/
lemma lines_spec {line : Text} (hline : line ∈ sorted.lines (compiled result)) :
    line.any isLineBoundary = false ∧ ∀ e, readLine? line = some e → IsSafe e.text := by
  rcases InputSorting.mem_lines.1 hline with hglob | ⟨i, hi, rfl⟩ | hcompiled
  · refine ⟨(hplain.glob line hglob).noBoundary, fun e he => ?_⟩
    have hmem := hglob
    rw [hsorted] at hmem
    obtain ⟨input, hinput, rfl⟩ := List.mem_map.1 (List.mem_filter.1 hmem).1
    exact (hplain.glob _ hglob).isSafe (getLast?_of_mem_splitInputs hinput)
      (Pattern.checkInputsSafe_eq_ok.1 h.checked _ (by simp [hglob])) he
  · have hproper : (Glob.tree (Pattern.directoryPath i)).IsProper := hplain.directory i hi
    have hstored : IsStored (Pattern.ofDirectory i) := Glob.IsProper.isStored_text hproper
    refine ⟨hstored.noBoundary, fun e he => ?_⟩
    rw [hstored.readLine?_eq] at he
    cases he
    exact hproper.readings_safe
  · obtain ⟨hstored, hreadable, -⟩ := compiled_spec hd hl hord hpolicy hsorted h hplain.file
    refine ⟨(hstored line hcompiled).noBoundary, fun e he => ?_⟩
    rw [(hstored line hcompiled).readLine?_eq] at he
    cases he
    refine checkSafe_eq_ok.1 hreadable.safe _ ?_
    rw [rawEntry, ofRaw, List.mem_append, List.mem_filter, List.mem_map]
    cases hmark : isExcluded line with
    | false => exact .inl ⟨hcompiled, by simp [PatternList.Entry.text, hmark]⟩
    | true => exact .inr ⟨line, List.mem_filter.2 ⟨hcompiled, hmark⟩, rfl⟩

end Text

/-- **The template is safe**: its first line is a comment, whatever the name is. -/
lemma checkSafe_template (hname : name.any isLineBoundary = false) :
    (parse (PresetFile.template name)).checkSafe = .ok () := by
  obtain ⟨rest, htemplate, hrest⟩ : ∃ rest, PresetFile.template name = "# ".toText ++ name ++ rest ∧
      (lines rest).isEmpty = false ∧
        (ofEntries ((lines rest).tail.filterMap readLine?)).checkSafe = .ok () :=
    ⟨_, rfl, by decide +kernel⟩
  obtain ⟨hne, hsafe⟩ := hrest
  obtain ⟨first, more, hlines⟩ := List.exists_cons_of_ne_nil (List.isEmpty_eq_false_iff.1 hne)
  have hfront : ("# ".toText ++ name).any isLineBoundary = false := by
    rw [List.any_append, hname]
    decide
  have hcomment : readLine? ("# ".toText ++ name ++ first) = none := by
    obtain ⟨tail, htail⟩ := stripLine_mark (c := .of '#') (by decide) (.of ' ' :: (name ++ first))
    rw [readLine?, show "# ".toText ++ name ++ first =
      .of '#' :: .of ' ' :: (name ++ first) from rfl,
      htail]
    rfl
  rw [hlines] at hsafe
  rw [htemplate, parse, lines_append hfront hlines, List.filterMap_cons_none hcomment]
  exact hsafe

variable (h : s.disk.WellFormed) (hl : l.IsProper)
  (hord : s.disk.fileSystem.HasOrdinaryFiles l.toText) (hpolicy : context.policy = .sensitive)
  (hname : name.any isLineBoundary = false)
  (hplain : (InputSorting.of s.disk.fileSystem l.toText (splitInputs inputs)).IsReadAsChecked)
include h hl hord hpolicy hname hplain

/-- **The text that a preset is made with is safe.** -/
theorem checkSafe_newText (htext : IsNewText now s.disk l.toText name inputs context text) :
    (parse text).checkSafe = .ok () := by
  obtain ⟨-, rfl⟩ | ⟨sorted, kept, result, hsorted, hgathers, rfl⟩ := htext
  · exact checkSafe_template hname
  rw [← hsorted] at hplain
  have hlines : ∀ line ∈ sorted.lines (compiled result), _ := fun line =>
    lines_spec h hl hord hpolicy hsorted hgathers hplain
  obtain ⟨-, -, -, hrecords⟩ := compiled_spec h hl hord hpolicy hsorted hgathers hplain.file
  have horigin : ∀ o ∈ some (originOf sorted kept.length result), o.IsOneLine := by
    intro o ho
    obtain rfl := Option.mem_some_iff.1 ho
    exact isOneLine_originOf sorted kept.length hrecords
  rw [PresetFile.parse_render hname horigin fun line hline => (hlines line hline).1]
  refine checkSafe_ofEntries fun e he => ?_
  obtain ⟨line, hline, hread⟩ := List.mem_filterMap.1 he
  exact (hlines line hline).2 e hread

omit hl hord hpolicy hname hplain in
/-- **What making a preset has written** is the text that the preset was made with. -/
lemma read_of_create {project : Text}
    (hproject : s.disk.kind? (plainPath project) = some .directory)
    (hcreate : (create now project name inputs level context).run s = (.ok path, s')) :
    ∃ text, IsNewText now s.disk project name inputs context text ∧
      s'.disk.read path = .ok text := by
  obtain ⟨hpath, hprobe, text, s₁, htext, hdisk, hstore⟩ := create_run hcreate
  refine ⟨text, htext, ?_⟩
  rw [← hdisk] at h hproject hpath hprobe
  obtain ⟨hmade, hencodable, d', hwrite, rfl⟩ := store_run.1 hstore
  obtain ⟨place, -, hfind, -⟩ := makesFile_of_write h hproject hpath hprobe hmade hwrite
  exact Disk.read_eq_of_find (isRefused_of_write hwrite) hfind hencodable

/-- **What making a preset has written is not refused as unsafe**, wherever it is expanded. -/
theorem expandText_of_create (hproject : s.disk.kind? l.toText = some .directory)
    (hcreate : (create now l.toText name inputs level context).run s = (.ok path, s')) :
    ∃ text, s'.disk.read path = .ok text ∧ ∀ fs root context' e,
      (expandText fs root context' (unifyNewlines text)).outcome ≠ .error (.unsafePath e) := by
  obtain ⟨text, htext, hread⟩ := read_of_create h (by rwa [plainPath_toText hl]) hcreate
  refine ⟨text, hread, fun fs root context' e hexpand => ?_⟩
  rw [expandText_unifyNewlines] at hexpand
  rcases Expand.fault_of_outcome hexpand with ⟨u, hunsafe, -⟩ | ⟨line, hline⟩
  · rw [checkSafe_newText h hl hord hpolicy hname hplain htext] at hunsafe
    cases hunsafe
  · cases hline

end Made

/-- A disk with a file whose name starts with two dots in front of a bracket. -/
def dottedDisk : Disk where
  nodes := [([[.of 'p']], .directory), ([[.of 'p'], "..[x]".toText], .file [])]
  limits := some .standard

/-- **A preset may be made and refused**: the file among the inputs is safe, and its pattern is not.
-/
theorem not_expandText_of_create :
    ((create ⟨2024, 1, 1, 0, 0, 0, none⟩ "/p".toText [.of 'q'] ["..[x]".toText] "minimal".toText
      .standard).run ⟨dottedDisk, []⟩).1 = .ok "/p/.presetc/presets/q.patterns".toText ∧
    ((listFiles "/p/.presetc/presets/q.patterns".toText "/p".toText .standard).run
      ((create ⟨2024, 1, 1, 0, 0, 0, none⟩ "/p".toText [.of 'q'] ["..[x]".toText] "minimal".toText
        .standard).run ⟨dottedDisk, []⟩).2).1 =
      .error (.unsafePath ⟨"pattern".toText, "..\\[x\\]".toText, .parentSegment⟩) := by
  refine ⟨?_, ?_⟩ <;> decide +kernel

end Preset

end GlobPreset
