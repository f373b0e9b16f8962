import GlobPreset.Compile
import GlobPreset.Proofs.Compile.Compactness
import GlobPreset.Proofs.Emit.Outermost

/-!
# What a run of whole directories keeps

The first rule goes through the directories from the bottom of the tree to its top, and collapses
those of which all files are selected, unless none of their files is left. What comes of it can be
said without the order: a directory has its pattern if some file of it is in no full directory
further inside, and a file stands for itself if it is in no full directory.

## Main definitions

* `Scanner.Holds` — a file is among those of the scan of a directory.
* `Scanner.IsFull`, `Scanner.IsEssential` — the directories that count, and those that are needed.
* `Scanner.IsOutermost` — the essential directories that no essential one leads to.
* `Engine.Exhausts` — an engine with all directories of its selection, the deepest first.
* `Run.HasTaken` — the state of a run that has gone through some directories.

## Main results

* `Scanner.Holds.comparable` — directories with a common file contain each other.
* `Run.HasTaken.next` — what one directory adds to the state.
* `Engine.isListing_run_minimal` — **the patterns of the run** are those of the essential
  directories and of the files that are in no full one.
* `Engine.patterns_optimize_minimal` — **the stored list of the run**, in closed form.
-/

set_option autoImplicit false

namespace GlobPreset

open GlobPreset.Path Text

/-! ### Full and essential directories -/

namespace Scanner

variable {s : Scanner}

/-- The file is among those of the scan of the directory. -/
def Holds (s : Scanner) (d f : Text) : Prop := ∃ scan, s.scan? d = some scan ∧ f ∈ scan.files

/-- A directory with a scan of at least `minFiles` files, all of which are selected. The project
does not count as one, and a directory has one spelling only. -/
structure IsFull (s : Scanner) (minFiles : Nat) (selection : List Text) (d : Text) : Prop where
  /-- It is given by names. -/
  plain : IsPlain d
  /-- It is known, with enough files. -/
  enough : ∃ scan, s.scan? d = some scan ∧ minFiles ≤ scan.files.length
  /-- All of its files are selected. -/
  selected : ∀ f, s.Holds d f → f ∈ selection

/-- A full directory some file of which is in no full directory further inside. -/
def IsEssential (s : Scanner) (minFiles : Nat) (selection : List Text) (d : Text) : Prop :=
  s.IsFull minFiles selection d ∧ ∃ f, s.Holds d f ∧
    ∀ rest, s.IsFull minFiles selection (d ++ .of '/' :: rest) → ¬ s.Holds (d ++ .of '/' :: rest) f

/-- An essential directory that no essential one leads to. -/
def IsOutermost (s : Scanner) (minFiles : Nat) (selection : List Text) (d : Text) : Prop :=
  s.IsEssential minFiles selection d ∧
    ∀ a, s.IsEssential minFiles selection a → ¬ s.ignore.LeadsTo a d

/-- Whether a directory is full depends on the selected files alone. -/
lemma isFull_congr {minFiles : Nat} {selection selection' : List Text}
    (h : ∀ f, f ∈ selection ↔ f ∈ selection') {d : Text} :
    s.IsFull minFiles selection d ↔ s.IsFull minFiles selection' d :=
  ⟨fun ⟨hplain, henough, hselected⟩ => ⟨hplain, henough, fun f hf => (h f).1 (hselected f hf)⟩,
    fun ⟨hplain, henough, hselected⟩ => ⟨hplain, henough, fun f hf => (h f).2 (hselected f hf)⟩⟩

/-- Whether a directory is outermost depends on the selected files alone. -/
lemma isOutermost_congr {minFiles : Nat} {selection selection' : List Text}
    (h : ∀ f, f ∈ selection ↔ f ∈ selection') {d : Text} :
    s.IsOutermost minFiles selection d ↔ s.IsOutermost minFiles selection' d := by
  simp only [IsOutermost, IsEssential, isFull_congr h]

/-- A file of a scan is reached from the directory. -/
lemma Holds.reaches (hp : s.fs.IsProject s.root) {d f : Text} (hd : IsPlain d)
    (h : s.Holds d f) : ∃ rel, s.fs.Reaches s.ignore s.root (segments d) rel ∧
      f = ofSegments (segments d ++ rel) := by
  obtain ⟨scan, hscan, hf⟩ := h
  rw [← ofSegments_segments d] at hscan
  exact ((surveys_of_scan? hp hd hscan).mem_files f).1 hf

/-- A file below a directory that is known is among those of its scan, if no ignored name is on the
way. -/
lemma holds_of_not_crosses (hp : s.fs.IsProject s.root) {d part : Text} {scan : DirectoryScan}
    (hscan : s.scan? d = some scan) (hplain : IsPlain (d ++ .of '/' :: part))
    (hfile : s.fs.HasFile s.root (d ++ .of '/' :: part)) (h : s.ignore.crosses part true = false) :
    s.Holds d (d ++ .of '/' :: part) := by
  rw [IsPlain, segments_append_slash] at hplain
  have hscan' : s.scan? (ofSegments (segments d)) = some scan := by rwa [ofSegments_segments]
  have hsurvey := surveys_of_scan? hp hplain.left hscan'
  have hkind := hfile.kind?
  rw [segments_append_slash] at hkind
  rw [← ofSegments_segments part, s.ignore.crosses_ofSegments (segments_ne_nil part) hplain.right]
    at h
  refine ⟨scan, hscan, (hsurvey.mem_files _).2 ⟨segments part, ?_, ?_⟩⟩
  · exact FileSystem.reaches_of_kind? hp (segments_ne_nil part) hplain hsurvey.clear hkind h
  · rw [← segments_append_slash, ofSegments_segments]

/-- **Directories with a common file contain each other.** -/
lemma Holds.comparable (hp : s.fs.IsProject s.root) {d d' f : Text} (hd : IsPlain d)
    (hd' : IsPlain d') (h : s.Holds d f) (h' : s.Holds d' f) :
    d' = d ∨ (∃ rest, d' = d ++ .of '/' :: rest) ∨ ∃ rest, d = d' ++ .of '/' :: rest := by
  obtain ⟨rel, hrel, rfl⟩ := h.reaches hp hd
  obtain ⟨rel', hrel', heq⟩ := h'.reaches hp hd'
  have hsegs := ofSegments_injective (hrel.areNames hp hd) (hrel'.areNames hp hd') heq
  have hfurther : ∀ {a b : Text} {more : List Text}, segments b = segments a ++ more →
      b = a ∨ ∃ rest, b = a ++ .of '/' :: rest := by
    intro a b more hmore
    rw [← ofSegments_segments b, hmore]
    by_cases hnil : more = []
    · rw [hnil, List.append_nil, ofSegments_segments]
      exact .inl rfl
    · rw [ofSegments_append (segments_ne_nil a) hnil, ofSegments_segments]
      exact .inr ⟨_, rfl⟩
  rcases List.append_eq_append_iff.1 hsegs with ⟨more, hmore, -⟩ | ⟨more, hmore, -⟩
  · exact (hfurther hmore).imp_right .inl
  · exact (hfurther hmore).imp Eq.symm .inr

end Scanner

/-! ### Proposals of whole directories -/

/-- A pattern is confirmed that finds all files of a scan, all of which are selected. -/
lemma Coverage.confirms_of_findsBy {c : Coverage} {pattern : Text} {scan : DirectoryScan}
    (halone : Pattern.alternatives pattern = [pattern])
    (hselecting : Pattern.IsSelecting (c.policy.key pattern))
    (hfinds : ∀ f ∈ scan.files, Pattern.findsBy c.policy pattern f = true)
    (hselected : ∀ f ∈ scan.files, c.isSelected f = true) :
    c.confirms pattern scan scan.files [] = true := by
  have hall : ∀ p ∈ [pattern], Pattern.IsSelecting (c.policy.key p) := by simpa using hselecting
  obtain ⟨m, hm, haccepts⟩ := Matcher.ofPatterns_eq_ok hall
  have himplied : scan.files.filter m.accepts = scan.files :=
    List.filter_eq_self.2 fun f hf => by rw [haccepts, List.any_cons, hfinds f hf, Bool.true_or]
  rw [confirms, verify, Matcher.ofBraced, halone, hm]
  simp only [Except.mapError, bind, Except.bind, himplied, Expand.withoutExcluded,
    List.isEmpty_nil, if_true, pure, Except.pure, Bool.and_eq_true, List.all_eq_true,
    List.contains_iff_mem]
  exact ⟨fun f hf => List.mem_map_of_mem hf, hselected⟩

namespace Engine

variable {e : Engine} {s : Scanner}

/-- An engine that works on the scans of a scanner for its selection, where letter case counts:
every directory on the way to a selected file is a candidate, and deeper ones stand in front. -/
structure Exhausts (e : Engine) (s : Scanner) : Prop extends e.WorksOn s where
  /-- Letter case counts. -/
  sensitive : s.policy = .sensitive
  /-- The scanner looks for the same files. -/
  selected_eq : s.selected = e.selection
  /-- What leads to a selected file is a candidate. -/
  mem_candidates : ∀ {l rest : List Text}, l ≠ [] → rest ≠ [] → AreNames (l ++ rest) →
    ofSegments (l ++ rest) ∈ e.selection → ofSegments l ∈ e.candidates
  /-- No candidate is deeper than those in front of it. -/
  sorted : e.candidates.Pairwise fun a d => depth d ≤ depth a

/-- The directory is full as far as the engine is concerned. -/
abbrev Fills (e : Engine) (s : Scanner) (d : Text) : Prop :=
  s.IsFull e.context.minFiles e.selection d

/-- The directory is essential as far as the engine is concerned. -/
abbrev Needs (e : Engine) (s : Scanner) (d : Text) : Prop :=
  s.IsEssential e.context.minFiles e.selection d

namespace Exhausts

/-- Paths are compared as they are written. -/
lemma key_eq (hx : e.Exhausts s) (f : Text) : e.policy.key f = f := by
  rw [policy, hx.policy_eq, hx.sensitive, CasePolicy.key_sensitive]

/-- The coverage of the engine knows a file as selected if it is in the selection. -/
lemma isSelected_iff (hx : e.Exhausts s) {f : Text} :
    e.coverage.isSelected f = true ↔ f ∈ e.selection := by
  rw [hx.coverage_eq, hx.sensitive, Coverage.isSelected, List.contains_iff_mem,
    Coverage.ofSelection, CasePolicy.map_key_sensitive, CasePolicy.key_sensitive]

/-- **A full directory with a file is a candidate.** -/
lemma mem_candidates_of_holds (hx : e.Exhausts s) {d f : Text} (hd : e.Fills s d)
    (hf : s.Holds d f) : d ∈ e.candidates := by
  have hsel := hd.selected f hf
  obtain ⟨rel, hrel, rfl⟩ := hf.reaches hx.project hd.plain
  rw [← ofSegments_segments d]
  exact hx.mem_candidates (segments_ne_nil d) hrel.ne_nil (hrel.areNames hx.project hd.plain) hsel

/-- A directory that is needed is a candidate. -/
lemma mem_candidates_of_needs (hx : e.Exhausts s) {d : Text} (hd : e.Needs s d) :
    d ∈ e.candidates := by
  obtain ⟨hfull, f, hf, -⟩ := hd
  exact hx.mem_candidates_of_holds hfull hf

/-- What is proposed for a directory: it is full, and some of its files are not covered yet. -/
lemma proposal_spec (hx : e.Exhausts s) {r : Run} {d : Text} (hd : d ∈ e.candidates) {p : Proposal}
    (h : e.proposeDirectory? r d = some p) :
    e.Fills s d ∧ (∃ f, s.Holds d f ∧ f ∉ r.covered) ∧ (∀ f, f ∈ p.files ↔ s.Holds d f) ∧
      p.patterns = [(Glob.tree d).text] := by
  obtain ⟨scan, hscan, hmin, hfull, hopen, -, hpatterns, hfiles, -⟩ := proposeDirectory?_spec h
  rw [hx.scan?_eq] at hscan
  have hholds : ∀ f, f ∈ scan.files ↔ s.Holds d f := by
    intro f
    constructor
    · intro hf
      exact ⟨scan, hscan, hf⟩
    · rintro ⟨scan', hscan', hf⟩
      obtain rfl : scan = scan' := Option.some.inj (hscan.symm.trans hscan')
      exact hf
  refine ⟨⟨(hx.isTame_candidate hd).areNames, ⟨scan, hscan, hmin⟩, fun f hf => ?_⟩, ?_, ?_,
    hpatterns⟩
  · have hkey := Compile.key_mem_of_fullySelected hscan hfull f ((hholds f).2 hf)
    rwa [hx.sensitive, CasePolicy.key_sensitive, hx.selected_eq] at hkey
  · obtain ⟨f, hf⟩ := List.exists_mem_of_ne_nil _ hopen
    obtain ⟨hf, huncovered⟩ := List.mem_filter.1 hf
    refine ⟨f, (hholds f).1 hf, ?_⟩
    simpa [Run.covers, hx.key_eq] using huncovered
  · rw [hfiles]
    exact hholds

/-- **A full directory is proposed** as long as one of its files is not covered. -/
lemma exists_proposal (hx : e.Exhausts s) {r : Run} {d f : Text} (hd : e.Fills s d)
    (hf : s.Holds d f) (hopen : f ∉ r.covered) : ∃ p, e.proposeDirectory? r d = some p := by
  have htame : IsTame d := hx.isTame_candidate (hx.mem_candidates_of_holds hd hf)
  obtain ⟨scan, hscan, hmin⟩ := hd.enough
  have hselected : ∀ g ∈ scan.files, g ∈ e.selection := fun g hg => hd.selected g ⟨scan, hscan, hg⟩
  have hmem : f ∈ scan.files := by
    obtain ⟨scan', hscan', hf⟩ := hf
    obtain rfl : scan = scan' := Option.some.inj (hscan.symm.trans hscan')
    exact hf
  have hfull : scan.fullySelected = true := by
    obtain ⟨-, -, entries, t, -, -, rfl⟩ := Scanner.visit_spec hscan
    simp only [Scanner.ofTally, Bool.and_eq_true, Bool.not_eq_true', List.isEmpty_eq_false_iff,
      List.all_eq_true, Scanner.isSelected, List.contains_iff_mem, hx.selected_eq, hx.sensitive,
      CasePolicy.key_sensitive]
    exact ⟨List.ne_nil_of_mem hmem, hselected⟩
  have huncovered : r.uncovered e.policy scan.files ≠ [] := by
    refine List.ne_nil_of_mem (List.mem_filter.2 ⟨hmem, ?_⟩)
    simpa [Run.covers, hx.key_eq] using hopen
  have hpolicy : e.coverage.policy = s.policy := by
    rw [hx.coverage_eq]
    rfl
  have hconfirms : e.coverage.confirms (directoryPattern d) scan scan.files [] = true := by
    refine Coverage.confirms_of_findsBy (Glob.IsProper.alternatives_text (g := .tree d) htame)
      (Pattern.findsBy_directoryPattern _ htame).1 (fun g hg => ?_)
      fun g hg => hx.isSelected_iff.2 (hselected g hg)
    have hg : s.Holds d g := ⟨scan, hscan, hg⟩
    obtain ⟨rel, hrel, rfl⟩ := hg.reaches hx.project hd.plain
    rw [hpolicy]
    exact (Glob.standsFor_tree hx.toWorksOn htame hscan hrel).2
  simp only [proposeDirectory?, hx.scan?_eq, hscan, Option.bind_eq_bind, Option.bind_some]
  rw [if_pos ⟨hmin, hfull, huncovered, hconfirms⟩]
  exact ⟨_, rfl⟩

end Exhausts

end Engine

/-! ### Going through the directories -/

/-- The state of a run that has gone through some directories: the files of the full ones are
covered, and the essential ones have their patterns. -/
structure Run.HasTaken (r : Run) (e : Engine) (s : Scanner) (done : List Text) : Prop where
  /-- What is covered. -/
  covered : ∀ f, f ∈ r.covered ↔ ∃ d ∈ done, e.Fills s d ∧ s.Holds d f
  /-- What has a pattern. -/
  patterns : ∀ p, p ∈ r.patterns ↔ ∃ d ∈ done, e.Needs s d ∧ p = (Glob.tree d).text

namespace Run.HasTaken

open Engine

variable {e : Engine} {s : Scanner} {r : Run} {done todo : List Text} {d : Text}

/-- A directory is essential if a file of it is not covered when it is its turn: all full
directories further inside have had theirs. -/
lemma needs_of_not_covered (h : r.HasTaken e s done) (hx : e.Exhausts s)
    (hsplit : e.candidates = done ++ d :: todo) (hd : e.Fills s d) {f : Text} (hf : s.Holds d f)
    (hopen : f ∉ r.covered) : e.Needs s d := by
  refine ⟨hd, f, hf, fun rest hrest hholds => ?_⟩
  have hdeeper := depth_lt_depth_append d rest
  have hsorted := hx.sorted
  have hmem := hx.mem_candidates_of_holds hrest hholds
  rw [hsplit] at hmem hsorted
  rcases List.mem_append.1 hmem with hmem | hmem
  · exact hopen ((h.covered f).2 ⟨_, hmem, hrest, hholds⟩)
  · rcases List.mem_cons.1 hmem with heq | hmem
    · rw [heq] at hdeeper
      exact absurd hdeeper (lt_irrefl _)
    · have hle := (List.pairwise_cons.1 (List.pairwise_append.1 hsorted).2.1).1 _ hmem
      omega

/-- An essential directory without open files has had its turn already. -/
lemma mem_of_needs (h : r.HasTaken e s done) (hx : e.Exhausts s)
    (hsplit : e.candidates = done ++ d :: todo) (hd : e.Needs s d)
    (hclosed : ∀ f, s.Holds d f → f ∈ r.covered) : d ∈ done := by
  obtain ⟨hfull, f, hf, hnone⟩ := hd
  obtain ⟨d', hd', hfull', hf'⟩ := (h.covered f).1 (hclosed f hf)
  rcases hf.comparable hx.project hfull.plain hfull'.plain hf' with rfl | ⟨rest, rfl⟩ | ⟨rest, heq⟩
  · exact hd'
  · exact absurd hf' (hnone rest hfull')
  · -- what contains the directory has not had its turn
    have hsorted := hx.sorted
    rw [hsplit] at hsorted
    have hle := (List.pairwise_append.1 hsorted).2.2 d' hd' d List.mem_cons_self
    have hdeeper := depth_lt_depth_append d' rest
    rw [← heq] at hdeeper
    omega

/-- **What one directory adds to the state.** -/
lemma next (h : r.HasTaken e s done) (hx : e.Exhausts s)
    (hsplit : e.candidates = done ++ d :: todo) :
    (e.proposeAt e.proposeDirectory? r [d]).HasTaken e s (done ++ [d]) := by
  have hcandidate : d ∈ e.candidates := by
    rw [hsplit]
    exact List.mem_append_right _ List.mem_cons_self
  have hlast : ∀ {P : Text → Prop}, (∃ a ∈ done ++ [d], P a) ↔ (∃ a ∈ done, P a) ∨ P d := by
    intro P
    simp only [List.mem_append, List.mem_singleton, or_and_right, exists_or, exists_eq_left]
  rw [proposeAt, List.foldl_cons, List.foldl_nil]
  cases hp : e.proposeDirectory? r d with
  | some p =>
    obtain ⟨hfull, ⟨f, hf, hopen⟩, hfiles, hpatterns⟩ := hx.proposal_spec hcandidate hp
    have hneeds := h.needs_of_not_covered hx hsplit hfull hf hopen
    have hkeys : p.files.map e.policy.key = p.files := List.map_id'' hx.key_eq _
    constructor
    · intro g
      rw [hlast, ← h.covered, and_iff_right hfull, ← hfiles]
      simp only [accept, hkeys, List.mem_append]
    · intro q
      rw [hlast, ← h.patterns, and_iff_right hneeds]
      simp only [accept, hpatterns, List.mem_append, List.mem_singleton]
  | none =>
    have hclosed : e.Fills s d → ∀ f, s.Holds d f → f ∈ r.covered := by
      intro hfull f hf
      by_contra hopen
      obtain ⟨p, hsome⟩ := hx.exists_proposal hfull hf hopen
      rw [hp] at hsome
      cases hsome
    constructor
    · intro f
      rw [hlast, ← h.covered]
      exact (or_iff_left_of_imp fun hd => hclosed hd.1 f hd.2).symm
    · intro q
      rw [hlast, ← h.patterns]
      refine (or_iff_left_of_imp fun hd => (h.patterns q).2 ⟨d, ?_, hd⟩).symm
      exact h.mem_of_needs hx hsplit hd.1 (hclosed hd.1.1)

/-- **All directories in a row.** -/
lemma proposeAt (hx : e.Exhausts s) : ∀ {todo done : List Text} {r : Run}, r.HasTaken e s done →
    e.candidates = done ++ todo →
    (e.proposeAt e.proposeDirectory? r todo).HasTaken e s e.candidates := by
  intro todo
  induction todo with
  | nil =>
    intro done r h hsplit
    rw [List.append_nil] at hsplit
    exact hsplit ▸ h
  | cons d todo ih =>
    intro done r h hsplit
    exact ih (h.next hx hsplit) (by rw [hsplit, List.append_cons])

end Run.HasTaken

namespace Engine

variable {e : Engine} {s : Scanner}

/-- **The patterns of a run of whole directories**: those of the essential directories, and those of
the selected files that are in no full directory.

**Proof sketch.** When it is the turn of a directory, the full directories further inside have had
theirs. So a file of it is open if it is in none of these, and a full directory with an open file is
proposed. Whatever has a full directory as a scan was selected, so its turn comes. -/
theorem isListing_run_minimal (hx : e.Exhausts s) :
    ∃ files : List Text, files.Nodup ∧
      (∀ f, f ∈ files ↔ f ∈ e.selection ∧ ∀ d, e.Fills s d → ¬ s.Holds d f) ∧
      Emit.IsListing (e.run .minimal).patterns (e.Needs s) files := by
  have hstart : Run.start.HasTaken e s [] := ⟨by simp [Run.start], by simp [Run.start]⟩
  have htaken := Run.HasTaken.proposeAt hx hstart (List.nil_append _).symm
  have hrun : (e.run .minimal).patterns =
      (e.proposeAt e.proposeDirectory? .start e.candidates).patterns ++
        e.literals (e.proposeAt e.proposeDirectory? .start e.candidates) := rfl
  generalize e.proposeAt e.proposeDirectory? .start e.candidates = r at htaken hrun
  have hfiles : ∀ f, f ∈ r.uncovered e.policy e.selection ↔
      f ∈ e.selection ∧ ∀ d, e.Fills s d → ¬ s.Holds d f := by
    intro f
    have hcovers : r.covers e.policy f = true ↔ ∃ d, e.Fills s d ∧ s.Holds d f := by
      rw [Run.covers, List.contains_iff_mem, hx.key_eq, htaken.covered]
      exact exists_congr fun d => and_iff_right_of_imp fun hd =>
        hx.mem_candidates_of_holds hd.1 hd.2
    rw [Run.uncovered, List.mem_filter, Bool.not_eq_true', ← Bool.not_eq_true, hcovers]
    simp only [not_exists, not_and]
  have hnodup := hx.keys_nodup
  rw [hx.sensitive, CasePolicy.map_key_sensitive] at hnodup
  refine ⟨_, hnodup.filter _, hfiles, ⟨fun p => ?_, fun d hd => ?_, fun f hf => ?_⟩⟩
  · rw [hrun, List.mem_append, htaken.patterns, literals, List.mem_map]
    refine or_congr (exists_congr fun d => and_iff_right_of_imp fun hd =>
      hx.mem_candidates_of_needs hd.1) (exists_congr fun f => and_congr_right fun _ => ?_)
    rw [Glob.text_file, eq_comm]
  · exact hx.isTame_candidate (hx.mem_candidates_of_needs hd)
  · exact hx.selected f ((hfiles f).1 hf).1

/-- **The list of an engine at the lowest level**, if the selection has nothing but files: the
patterns of the outermost essential directories, sorted, and the literal patterns of the selected
files that are in no full directory, sorted.

**Proof sketch.** The raw patterns of the run are those of all essential directories and of these
files. A file in no full directory is not reached from any of them, so its pattern stays; and of the
directories, those stay that no other one leads to. -/
theorem patterns_optimize_minimal (hx : e.Exhausts s)
    (hall : ∀ f ∈ e.selection, s.fs.HasFile s.root f) :
    ∃ dirs files : List Text,
      dirs.Nodup ∧ (∀ d, d ∈ dirs ↔ s.IsOutermost e.context.minFiles e.selection d) ∧
      files.Nodup ∧ (∀ f, f ∈ files ↔ f ∈ e.selection ∧
        ∀ d, s.IsFull e.context.minFiles e.selection d → ¬ s.Holds d f) ∧
      (e.optimize s.ignore .minimal).patterns =
        Text.sort (dirs.map directoryPattern) ++ Text.sort (files.map Pattern.escapeLiteral) := by
  obtain ⟨files, hnodup, hfiles, hlisting⟩ := isListing_run_minimal hx
  have hfree : ∀ d, e.Needs s d → ∀ f ∈ files, ∀ part, f = d ++ .of '/' :: part →
      s.ignore.crosses part true = true := by
    rintro d ⟨hfull, -⟩ f hf part rfl
    obtain ⟨hsel, hnone⟩ := (hfiles _).1 hf
    obtain ⟨scan, hscan, -⟩ := hfull.enough
    by_contra hcross
    rw [Bool.not_eq_true] at hcross
    apply hnone d hfull
    exact Scanner.holds_of_not_crosses hx.project hscan (hx.selected _ hsel).isPlain
      (hall _ hsel) hcross
  obtain ⟨dirs, hdirs, houtermost, hpatterns⟩ := emit_eq_outermost hlisting hnodup hfree
  refine ⟨dirs, files, hdirs, houtermost, hnodup, hfiles, ?_⟩
  have hsensitive : e.policy = .sensitive := hx.policy_eq.trans hx.sensitive
  have htexts : (files.map fun f => (Glob.file f).text) = files.map Pattern.escapeLiteral :=
    List.map_congr_left fun f _ => Glob.text_file f
  show (emit false s.ignore e.policy (e.run .minimal).patterns).patterns = _
  rw [hsensitive, ← htexts]
  exact hpatterns

end Engine

end GlobPreset
