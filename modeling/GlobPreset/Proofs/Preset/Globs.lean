import GlobPreset.Proofs.Preset.Readable
import GlobPreset.Proofs.Preset.Room
import GlobPreset.Proofs.Preset.Serving

/-!
# Presets of globs

Inputs are cut at commas and line ends, stripped, sorted, checked, written one a line without
repetitions, and read line by line. Through all of this a glob stays as it is given if it is a line
without edge blanks, backslashes, commas and surrogates that is no comment. A comma separates inputs
wherever it stands, so that a glob with braces around a comma is cut apart; and a surrogate has no
form in which it could be written.

## Main definitions

* `Preset.IsGlobInput` — a glob that is kept as it is given.

## Main results

* `Pattern.looksLikeGlob_dropEndSlashes` — slashes at the end do not make a glob.
* `Preset.sorting_of_globs`, `Preset.splitInputs_eq_self` — what sorting and cutting do to globs.
* `Preset.HasRoom.load_of_create_split` — a preset made from inputs that are cut into globs holds
  these.
* `Preset.HasRoom.load_of_create_globs` — **a preset made from globs** holds just these.
* `Preset.not_load_of_create_globs` — a comma in a glob is not kept, and nor is a surrogate.
-/

set_option autoImplicit false

namespace GlobPreset

open GlobPreset.Path Text

namespace Pattern

/-! ### Slashes behind a glob -/

/-- A slash behind a line does not matter for a mark in braces without slashes. -/
lemma hasBracedMark_concat {mark : Text} (hmark : .of '/' ∉ mark) (line : Text) :
    hasBracedMark mark (line ++ [.of '/']) = hasBracedMark mark line := by
  have hclose : ∀ t, hasBracedMark.markThenClose mark (t ++ [.of '/']) =
      hasBracedMark.markThenClose mark t := by
    intro t
    induction t with
    | nil => cases mark <;> simp_all [hasBracedMark.markThenClose, dropLead?, eq_comm]
    | cons c t ih =>
      have hlead := dropLead?_concat hmark (c :: t)
      rw [List.cons_append] at hlead ⊢
      rw [hasBracedMark.markThenClose, hasBracedMark.markThenClose, hlead, ih]
      cases dropLead? mark (c :: t) <;> simp
  have hafter : ∀ t, afterFirst? (.of '{') (t ++ [.of '/']) =
      (afterFirst? (.of '{') t).map (· ++ [.of '/']) := by
    intro t
    induction t with
    | nil => rfl
    | cons c t ih =>
      rw [List.cons_append, afterFirst?, afterFirst?, ih]
      split <;> rfl
  unfold hasBracedMark
  rw [hafter]
  cases afterFirst? (.of '{') line with
  | none => rfl
  | some rest => exact hclose rest

/-- A slash behind a text opens no extended group. -/
lemma hasExtendedOpener_concat (t : Text) :
    hasExtendedOpener (t ++ [.of '/']) = hasExtendedOpener t := by
  induction t with
  | nil => rfl
  | cons c t ih =>
    rw [List.cons_append, hasExtendedOpener, hasExtendedOpener, ih]
    cases t <;> rfl

/-- A slash behind a text is in no brackets that are closed. -/
lemma bracketContents_concat (t : Text) : ∀ (escaped : Bool) (skip : Nat),
    bracketContents escaped skip (t ++ [.of '/']) = bracketContents escaped skip t := by
  induction t with
  | nil =>
    intro escaped skip
    cases skip <;> rfl
  | cons c t ih =>
    intro escaped skip
    cases skip with
    | succ skip => exact ih _ _
    | zero =>
      rw [List.cons_append, bracketContents, bracketContents]
      by_cases hclosed : (t.takeWhile (· != .of ']')).length < t.length
      · have hcontent : List.takeWhile (· != .of ']') (t ++ [.of '/']) =
            t.takeWhile (· != .of ']') := by
          rw [List.takeWhile_append, if_neg hclosed.ne]
        rw [hcontent, ih, ih]
        have hlonger : (t.takeWhile (· != .of ']')).length < (t ++ [CodePoint.of '/']).length := by
          rw [List.length_append]
          exact Nat.lt_add_right _ hclosed
        simp only [hclosed, hlonger]
      · have hwhole : t.takeWhile (· != .of ']') = t := by
          refine (List.takeWhile_prefix _).eq_of_length_le ?_
          omega
        have hcontent : List.takeWhile (· != .of ']') (t ++ [.of '/']) = t ++ [.of '/'] := by
          rw [List.takeWhile_append, hwhole, if_pos rfl]
          rfl
        rw [hcontent, hwhole]
        simp [ih]

/-- A slash behind a text does not make it look like a glob. -/
lemma looksLikeGlob_concat (t : Text) : looksLikeGlob (t ++ [.of '/']) = looksLikeGlob t := by
  have hhead : (List.head? (t ++ [.of '/']) == some (.of '!')) = (t.head? == some (.of '!')) := by
    cases t <;> rfl
  have hlines : ∀ marked : Text → Bool, (∀ l, marked (l ++ [.of '/']) = marked l) →
      (feedLines (t ++ [.of '/'])).any marked = (feedLines t).any marked := by
    intro marked hmarked
    obtain ⟨front, last, hcut⟩ := (List.eq_nil_or_concat' (splitOn (.of '\n') t)).resolve_left
      (splitOn_ne_nil (.of '\n') t)
    rw [feedLines, feedLines, splitOn_append_last hcut (by decide), hcut]
    simp [hmarked]
  rw [looksLikeGlob, looksLikeGlob, hhead, hlines _ fun l => ?_, hasExtendedOpener_concat,
    bracketContents_concat]
  · simp
  · rw [hasBracedMark_concat (by decide), hasBracedMark_concat (by decide)]

/-- **Slashes at the end** do not matter for whether a text looks like a glob. -/
lemma looksLikeGlob_dropEndSlashes (t : Text) :
    looksLikeGlob (dropEndSlashes t) = looksLikeGlob t := by
  rw [dropEndSlashes, dropEndWhile_eq_rdropWhile]
  induction t using List.reverseRecOn with
  | nil => rfl
  | append_singleton t c ih =>
    rw [List.rdropWhile_concat]
    split
    · rename_i hc
      rw [ih, beq_iff_eq.1 hc, looksLikeGlob_concat]
    · rfl

end Pattern

namespace Preset

open Location Disk PatternList

/-! ### Inputs -/

/-- **A glob that is kept as it is given**: one line without edge blanks and backslashes that is no
comment, looks like a glob, and is safe behind its exclusion marks. -/
structure IsGlobInput (input : Text) : Prop where
  /-- No line ends in it. -/
  noBoundary : input.any isLineBoundary = false
  /-- It has no backslash. -/
  noBackslash : .of '\\' ∉ input
  /-- There are no blanks at its ends. -/
  strip_eq : strip input = input
  /-- It is no comment. -/
  unmarked : input.head? ≠ some (.of '#')
  /-- It looks like a glob. -/
  glob : Pattern.looksLikeGlob input = true
  /-- It is safe, apart from exclusion marks. -/
  safe : Pattern.checkSafe (input.dropWhile (· == .of '!')) = .ok ()

instance (input : Text) : Decidable (IsGlobInput input) :=
  decidable_of_iff (input.any isLineBoundary = false ∧ .of '\\' ∉ input ∧ strip input = input ∧
      input.head? ≠ some (.of '#') ∧ Pattern.looksLikeGlob input = true ∧
      Pattern.checkSafe (input.dropWhile (· == .of '!')) = .ok ())
    ⟨fun ⟨h₁, h₂, h₃, h₄, h₅, h₆⟩ => ⟨h₁, h₂, h₃, h₄, h₅, h₆⟩,
      fun h => ⟨h.noBoundary, h.noBackslash, h.strip_eq, h.unmarked, h.glob, h.safe⟩⟩

namespace IsGlobInput

variable {input : Text}

/-- A glob among the inputs is not empty. -/
lemma ne_nil (h : IsGlobInput input) : input ≠ [] := by
  rintro rfl
  exact absurd h.glob (by decide)

/-- A glob among the inputs has no line feed. -/
lemma feed_not_mem (h : IsGlobInput input) : .of '\n' ∉ input := fun hmem =>
  List.any_eq_false.1 h.noBoundary _ hmem (by decide)

/-- It is loaded as it was written. -/
lemma isPatternLine (h : IsGlobInput input) : PresetFile.IsPatternLine input :=
  ⟨h.ne_nil, h.strip_eq, h.noBoundary, h.unmarked⟩

/-- It counts as a glob, also if there is a directory of that name. -/
lemma kind_eq (h : IsGlobInput input) (fs : FileSystem) (base : Text) :
    InputKind.of fs base input = .pattern := by
  rw [InputKind.of, toSlashes_eq_self h.noBackslash, Pattern.looksLikeGlob_dropEndSlashes, h.glob,
    if_pos rfl]

/-- It passes the check of inputs. -/
lemma isSafe (h : IsGlobInput input) : IsSafe (input.dropWhile (· == .of '!')) :=
  Pattern.checkAllSafe_eq_ok.1 h.safe _ (List.mem_singleton_self _)

end IsGlobInput

/-- Globs are sorted as patterns, and nothing else. -/
lemma sorting_of_globs {inputs : List Text} (h : ∀ i ∈ inputs, IsGlobInput i) (fs : FileSystem)
    (base : Text) : InputSorting.of fs base inputs = ⟨inputs, [], []⟩ := by
  have hplain : inputs.map toSlashes = inputs :=
    (List.map_congr_left fun i hi => toSlashes_eq_self (h i hi).noBackslash).trans (List.map_id' _)
  have hkind : ∀ i ∈ inputs, InputKind.of fs base i = .pattern := fun i hi =>
    (h i hi).kind_eq fs base
  rw [InputSorting.of, hplain]
  dsimp only
  rw [List.filter_eq_self.2 fun i hi => by simp [hkind i hi],
    List.filter_eq_nil_iff.2 fun i hi => by simp [hkind i hi],
    List.filter_eq_nil_iff.2 fun i hi => by simp [hkind i hi]]

/-- A text without line feeds has none to read as commas. -/
lemma commasForLines_eq_self {t : Text} (h : .of '\n' ∉ t) : commasForLines t = t := by
  fun_induction commasForLines t with
  | case1 => rfl
  | case2 rest ih => simp at h
  | case3 c rest hno ih =>
    rw [List.mem_cons, not_or] at h
    rw [if_neg (Ne.symm h.1), ih h.2]

/-- **Inputs without separators** are taken as they are. -/
lemma splitInputs_eq_self {inputs : List Text}
    (h : ∀ i ∈ inputs, i ≠ [] ∧ strip i = i ∧ .of '\n' ∉ i ∧ .of ',' ∉ i) :
    splitInputs inputs = inputs := by
  have hpieces : inputs.flatMap (fun i => splitOn (.of ',') (commasForLines i)) = inputs := by
    refine (List.flatMap_congr fun i hi => ?_).trans (List.flatMap_singleton' _)
    rw [commasForLines_eq_self (h i hi).2.2.1, splitOn_of_not_mem (h i hi).2.2.2]
  have hstrip : inputs.map strip = inputs :=
    (List.map_congr_left fun i hi => (h i hi).2.1).trans (List.map_id' _)
  rw [splitInputs, hpieces, hstrip]
  exact List.filter_eq_self.2 fun i hi => by simp [(h i hi).1]

/-! ### Making a preset of globs -/

section Made

variable {s : Session} {project name : Text} {root inputs : List Text}

/-- A preset is saved if its text can be stored where nothing is. -/
lemma save_run_of_store {s' : Session} {now : Timestamp} {path : Text} {patterns : List Text}
    {origin : Option PresetFile.Origin} (hpath : pathOf s.disk project name = .ok path)
    (hprobe : s.disk.probe path = .ok none)
    (hstore : (store path (PresetFile.render name patterns origin now)).run s = (.ok (), s')) :
    (save now project name patterns false origin).run s = (.ok path, s') := by
  simp only [save, Workflow.bind_run, Workflow.disk_run, Workflow.take_run, Workflow.probe_run]
  refine ⟨_, s, ⟨rfl, rfl⟩, path, s, ⟨hpath, rfl⟩, none, s, ⟨hprobe, rfl⟩, ?_⟩
  rw [if_neg (by simp)]
  exact Workflow.bind_run.2 ⟨(), s', hstore, Workflow.pure_run.2 ⟨rfl, rfl⟩⟩

/-- **A preset that is made from inputs that are cut into globs** holds these, each of them once. It
can be made wherever there is room for it. -/
theorem HasRoom.load_of_create_split (hroom : HasRoom s.disk project name root)
    (hname : name.any isLineBoundary = false) (hwritable : name.IsEncodable)
    (hne : splitInputs inputs ≠ []) (hglobs : ∀ i ∈ splitInputs inputs, IsGlobInput i)
    (hencodable : ∀ i ∈ splitInputs inputs, i.IsEncodable) (now : Timestamp) (l : Level)
    (context : Context) :
    ∃ path s', pathOf s.disk project name = .ok path ∧
      (create now project name inputs l.name context).run s = (.ok path, s') ∧
      (load project name).run s' = (.ok (dedupe (splitInputs inputs)), s') := by
  have hlines : ∀ p ∈ dedupe (splitInputs inputs), PresetFile.IsPatternLine p := fun p hp =>
    (hglobs p (mem_dedupe.1 hp)).isPatternLine
  have horigin : ∀ o ∈ some (originOf ⟨splitInputs inputs, [], []⟩ 0 none), o.IsOneLine := by
    intro o ho
    obtain rfl := Option.mem_some_iff.1 ho
    exact isOneLine_originOf _ _ (by simp)
  have htext : (PresetFile.render name (dedupe (splitInputs inputs))
      (some (originOf ⟨splitInputs inputs, [], []⟩ 0 none)) now).IsEncodable := by
    refine PresetFile.isEncodable_render.2 ⟨hwritable, fun o ho => ?_, fun p hp =>
      hencodable p (mem_dedupe.1 hp)⟩
    obtain rfl := Option.mem_some_iff.1 ho
    exact isEncodable_originOf.2 (by simp)
  obtain ⟨path, s', hpath, hprobe, hstore, hload⟩ := hroom.exists_store rfl htext
  refine ⟨path, s', hpath, ?_, ?_⟩
  · have hchecked : Pattern.checkInputsSafe (splitInputs inputs) = .ok () :=
      Pattern.checkInputsSafe_eq_ok.2 fun i hi => (hglobs i hi).isSafe
    have hsaved := save_run_of_store hpath hprobe hstore
    simp only [create, Workflow.bind_run, Workflow.take_run, Workflow.disk_run, Workflow.probe_run,
      mapError_eq_ok]
    refine ⟨l, s, ⟨Level.parse_eq_ok.2 rfl, rfl⟩, _, s, ⟨rfl, rfl⟩, path, s, ⟨hpath, rfl⟩, none, s,
      ⟨hprobe, rfl⟩, ?_⟩
    rw [if_neg (by simp), if_neg (by simpa using hne), sorting_of_globs hglobs]
    simp only [keepFiles, compileFiles, Workflow.bind_run, Workflow.take_run, Workflow.pure_run,
      mapError_eq_ok, List.map_nil, List.append_nil]
    refine ⟨(), s, ⟨hchecked, rfl⟩, [], s, ⟨rfl, rfl⟩, none, s, ?_, ?_⟩
    · exact Workflow.pure_run.2 ⟨rfl, rfl⟩
    · rw [Option.map_none, Option.getD_none, List.append_nil]
      exact hsaved
  · rw [hload, (PresetFile.patternLines_render_iff hlines).2
      (PresetFile.patternLines_header hname horigin)]

/-- **A preset that is made from globs without commas and surrogates** holds just these, each of
them once and in their order. -/
theorem HasRoom.load_of_create_globs (hroom : HasRoom s.disk project name root)
    (hname : name.any isLineBoundary = false) (hwritable : name.IsEncodable) (hne : inputs ≠ [])
    (hglobs : ∀ i ∈ inputs, IsGlobInput i) (hcommas : ∀ i ∈ inputs, .of ',' ∉ i)
    (hencodable : ∀ i ∈ inputs, i.IsEncodable) (now : Timestamp) (l : Level) (context : Context) :
    ∃ path s', pathOf s.disk project name = .ok path ∧
      (create now project name inputs l.name context).run s = (.ok path, s') ∧
      (load project name).run s' = (.ok (dedupe inputs), s') := by
  have hsplit : splitInputs inputs = inputs := splitInputs_eq_self fun i hi =>
    ⟨(hglobs i hi).ne_nil, (hglobs i hi).strip_eq, (hglobs i hi).feed_not_mem, hcommas i hi⟩
  have hmade := hroom.load_of_create_split hname hwritable
    (show splitInputs inputs ≠ [] by rwa [hsplit]) (by rwa [hsplit]) (by rwa [hsplit]) now l context
  rwa [hsplit] at hmade

end Made

/-- There is room for a preset on an empty disk. -/
lemma exists_hasRoom_looseDisk : ∃ home, HasRoom looseDisk "/p".toText "q".toText home := by
  obtain ⟨home, hshelf⟩ := isBare_looseDisk.exists_isShelf
  exact ⟨home, hshelf.hasRoom (by decide) (by decide) (by simp)⟩

/-- Two globs, one of them given twice and the other one with an exclusion mark. -/
theorem load_of_create_globs_looseDisk :
    ∃ path s', (create ⟨2024, 1, 1, 0, 0, 0, none⟩ "/p".toText "q".toText
        ["*.ts".toText, "!a/**".toText, "*.ts".toText] "minimal".toText .standard).run
          ⟨looseDisk, []⟩ = (.ok path, s') ∧
      (load "/p".toText "q".toText).run s' = (.ok ["*.ts".toText, "!a/**".toText], s') := by
  obtain ⟨home, hroom⟩ := exists_hasRoom_looseDisk
  have hglobs : ∀ i ∈ ["*.ts".toText, "!a/**".toText, "*.ts".toText], IsGlobInput i := by
    decide +kernel
  obtain ⟨path, s', -, hcreate, hload⟩ := HasRoom.load_of_create_globs (s := ⟨looseDisk, []⟩) hroom
    (by decide) (by decide) (by simp) hglobs (by decide +kernel) (by decide +kernel)
    ⟨2024, 1, 1, 0, 0, 0, none⟩ .minimal .standard
  exact ⟨path, s', hcreate, hload⟩

/-- A comma separates two inputs, although with it they look like one glob; and a surrogate stops
the request. -/
theorem not_load_of_create_globs :
    (¬ ∀ (s : Session) (project name : Text) (root inputs : List Text) (now : Timestamp) (l : Level)
      (context : Context), HasRoom s.disk project name root → name.any isLineBoundary = false →
      name.IsEncodable → inputs ≠ [] → (∀ i ∈ inputs, IsGlobInput i ∧ i.IsEncodable) →
      ∃ path s', (create now project name inputs l.name context).run s = (.ok path, s') ∧
        (load project name).run s' = (.ok (dedupe inputs), s')) ∧
    ¬ ∀ (s : Session) (project name : Text) (root inputs : List Text) (now : Timestamp) (l : Level)
      (context : Context), HasRoom s.disk project name root → name.any isLineBoundary = false →
      name.IsEncodable → inputs ≠ [] → (∀ i ∈ inputs, IsGlobInput i ∧ .of ',' ∉ i) →
      ∃ path s', (create now project name inputs l.name context).run s = (.ok path, s') ∧
        (load project name).run s' = (.ok (dedupe inputs), s') := by
  obtain ⟨home, hroom⟩ := exists_hasRoom_looseDisk
  refine ⟨fun hall => ?_, fun hall => ?_⟩
  · obtain ⟨path, s', hcreate, hload⟩ := hall ⟨looseDisk, []⟩ _ _ _ ["*.ts,*.js".toText]
      ⟨2024, 1, 1, 0, 0, 0, none⟩ .minimal .standard hroom (by decide) (by decide) (by simp)
      (by decide +kernel)
    have hcut : splitInputs ["*.ts,*.js".toText] ≠ [] := by decide +kernel
    obtain ⟨path', s'', -, hcreate', hload'⟩ := HasRoom.load_of_create_split
      (s := ⟨looseDisk, []⟩) hroom (by decide) (by decide) hcut (by decide +kernel)
      (by decide +kernel) ⟨2024, 1, 1, 0, 0, 0, none⟩ .minimal .standard
    obtain ⟨-, rfl⟩ := Prod.mk.inj (hcreate.symm.trans hcreate')
    have hsame := Except.ok.inj (Prod.mk.inj (hload.symm.trans hload')).1
    exact absurd hsame (by decide +kernel)
  · obtain ⟨path, s', hcreate, -⟩ := hall ⟨looseDisk, []⟩ _ _ _ [strayByte :: "*.ts".toText]
      ⟨2024, 1, 1, 0, 0, 0, none⟩ .minimal .standard hroom (by decide) (by decide) (by simp)
      (by decide +kernel)
    have hstopped : ((create ⟨2024, 1, 1, 0, 0, 0, none⟩ "/p".toText "q".toText
        [strayByte :: "*.ts".toText] Level.minimal.name .standard).run
          ⟨looseDisk, []⟩).1.toBool = false := by
      decide +kernel
    rw [hcreate] at hstopped
    cases hstopped

end Preset

end GlobPreset
