import GlobPreset.Proofs.FileSystem.Agreement

/-!
# Requests in a row

A scanner that keeps its scans answers as one that makes every scan anew: what is known is what
would be found. A scan that was made on the way to a directory further above had less fuel left than
one that is asked for, but no directory is so deep that this could be seen.

## Main definitions

* `Scanner.Trusts` — every scan that is known is the one that would be made.
* `Scanner.IsBounded` — a scanner of a project whose directories are not too deep for its fuel.

## Main results

* `Scanner.scan_visit_eq` — scans do not depend on the fuel, as long as there is enough.
* `Scanner.revisit_spec` — a recalled scan is the one that would be made.
* `Scanner.session_outcome` — **each answer of a session is that of a new scanner**.
-/

set_option autoImplicit false

namespace GlobPreset

open GlobPreset.Path

namespace Scanner

variable {s : Scanner}

/-! ### Fuel -/

/-- A scanner of a project whose directories are not too deep for its fuel. -/
structure IsBounded (s : Scanner) : Prop where
  /-- The scanner looks at a project. -/
  project : s.fs.IsProject s.root
  /-- Every real path is one of names. -/
  real : ∀ path, ∃ names, AreNames names ∧ s.fs.realPath path = .of '/' :: ofSegments names
  /-- A directory in place is less deep than the bound of the file system. -/
  depth : ∀ {names}, AreNames names → s.fs.kind? (inside s.root names) = some .directory →
    FileSystem.InPlaceBy s.policy s.fs s.root names → names.length < s.fs.depthBound

/-- What is found among entries depends on the scans of the subdirectories among them. -/
lemma tally_through_congr {child child' : Text → Result} {directory : Text} {entries : List Entry}
    (h : ∀ e ∈ entries, s.inspect directory e = .subdirectory →
      (child (join directory e.name)).scan = (child' (join directory e.name)).scan) :
    (s.through child directory entries).tally = (s.through child' directory entries).tally := by
  induction entries with
  | nil => rfl
  | cons e rest ih =>
    have hrest := ih fun e' he' => h e' (List.mem_cons_of_mem _ he')
    rw [through, through]
    cases hi : s.inspect directory e with
    | ignored => exact hrest
    | unknown warning => rfl
    | file =>
      dsimp only
      rw [hrest]
    | subdirectory =>
      dsimp only
      rw [h e List.mem_cons_self hi]
      cases (child' (join directory e.name)).scan with
      | none => rfl
      | some sub =>
        dsimp only
        rw [hrest]

/-- The scan of a directory, as far as it depends on the scans of its subdirectories. -/
lemma scan_visit_congr {fuel fuel' : Nat} {directory : Text}
    (h : ∀ entries, (if directory.isEmpty then none else s.misplaced? directory) = none →
      s.fs.list (absolute s.root directory) = .ok entries →
      ∀ e ∈ entries, s.inspect directory e = .subdirectory →
        (s.visit fuel (join directory e.name)).scan =
          (s.visit fuel' (join directory e.name)).scan) :
    (s.visit (fuel + 1) directory).scan = (s.visit (fuel' + 1) directory).scan := by
  rw [visit, visit]
  dsimp only
  split
  · rfl
  split
  · rfl
  rename_i hplace
  cases hlist : s.fs.list (absolute s.root directory) with
  | error e => simp [FileSystem.sortedList, hlist, Except.map]
  | ok entries =>
    simp only [FileSystem.sortedList, hlist, Except.map]
    rw [tally_through_congr fun e he => h entries hplace hlist e (mem_sortBy.1 he)]

/-- **Scans do not depend on the fuel**, as long as there is enough for the directories below.

**Proof sketch.** Induction on the fuel. A subdirectory is one name deeper and has one unit of fuel
less; where the fuel is used up, no directory is deep enough to be scanned with more of it. -/
theorem scan_visit_eq (hb : s.IsBounded) :
    ∀ {fuel fuel' : Nat} {names : List Text}, AreNames names →
      s.fs.depthBound ≤ fuel + names.length → s.fs.depthBound ≤ fuel' + names.length →
      (s.visit fuel (ofSegments names)).scan = (s.visit fuel' (ofSegments names)).scan := by
  -- a directory as deep as the bound has no scan
  have hdeep : ∀ {fuel : Nat} {names : List Text}, AreNames names →
      s.fs.depthBound ≤ names.length → (s.visit fuel (ofSegments names)).scan = none := by
    intro fuel names hn hle
    cases hscan : (s.visit fuel (ofSegments names)).scan with
    | none => rfl
    | some scan =>
      cases fuel with
      | zero => cases hscan
      | succ fuel =>
        obtain ⟨hdir, hplace, -⟩ := visit_eq_some hb.project hn hscan
        have := hb.depth hn hdir hplace
        omega
  intro fuel
  induction fuel with
  | zero =>
    intro fuel' names hn hle _
    rw [hdeep hn (by omega), hdeep hn (by omega)]
  | succ fuel ih =>
    intro fuel' names hn hle hle'
    cases fuel' with
    | zero => rw [hdeep hn (by omega), hdeep hn (by omega)]
    | succ fuel' =>
      refine scan_visit_congr fun entries _ hlist e he _ => ?_
      rw [absolute_ofSegments hn] at hlist
      have hinner := hn.append (areNames_singleton (hb.project.isName hn hlist he))
      rw [join_ofSegments hn]
      refine ih hinner ?_ ?_ <;> rw [List.length_append, List.length_singleton] <;> omega

/-! ### Known scans -/

/-- Every scan that is known is the one that would be made. -/
def Trusts (s : Scanner) (known : Known) : Prop :=
  ∀ entry ∈ known, entry.2 = (s.visit (s.fs.depthBound + 1) entry.1).scan

/-- An empty memory can be trusted. -/
lemma trusts_nil : s.Trusts [] := fun _ h => absurd h List.not_mem_nil

/-- A scan that was made may be remembered. -/
lemma Trusts.cons {known : Known} (h : s.Trusts known) {directory : Text}
    {scan : Option DirectoryScan}
    (hscan : scan = (s.visit (s.fs.depthBound + 1) directory).scan) :
    s.Trusts ((directory, scan) :: known) :=
  List.forall_mem_cons.2 ⟨hscan, h⟩

/-- Going through entries with known scans finds what going through them finds. -/
lemma throughKnown_spec {child : Known → Text → Recalled (Option DirectoryScan)}
    {child' : Text → Result} {directory : Text} {entries : List Entry}
    (h : ∀ e ∈ entries, s.inspect directory e = .subdirectory → ∀ known, s.Trusts known →
      (child known (join directory e.name)).value = (child' (join directory e.name)).scan ∧
        s.Trusts (child known (join directory e.name)).known) :
    ∀ {known : Known}, s.Trusts known →
      (s.throughKnown child directory known entries).value =
          (s.through child' directory entries).tally ∧
        s.Trusts (s.throughKnown child directory known entries).known := by
  induction entries with
  | nil => exact fun hknown => ⟨rfl, hknown⟩
  | cons e rest ih =>
    intro known hknown
    have hrest : ∀ {known : Known}, s.Trusts known → _ :=
      ih fun e' he' => h e' (List.mem_cons_of_mem _ he')
    rw [throughKnown, through]
    cases hi : s.inspect directory e with
    | ignored => exact hrest hknown
    | unknown warning => exact ⟨rfl, hknown⟩
    | file =>
      dsimp only
      rw [(hrest hknown).1]
      exact ⟨rfl, (hrest hknown).2⟩
    | subdirectory =>
      obtain ⟨hvalue, hinner⟩ := h e List.mem_cons_self hi known hknown
      dsimp only
      rw [hvalue]
      cases (child' (join directory e.name)).scan with
      | none => exact ⟨rfl, hinner⟩
      | some sub =>
        dsimp only
        rw [(hrest hinner).1]
        exact ⟨rfl, (hrest hinner).2⟩

/-- Making the scan of a directory with known scans gives the scan of a visit. -/
lemma build_spec (child : Known → Text → Recalled (Option DirectoryScan)) (fuel : Nat)
    (directory : Text) {known : Known} (hknown : s.Trusts known)
    (h : ∀ entries, (if directory.isEmpty then none else s.misplaced? directory) = none →
      s.fs.list (absolute s.root directory) = .ok entries →
      ∀ e ∈ entries, s.inspect directory e = .subdirectory → ∀ known, s.Trusts known →
        (child known (join directory e.name)).value =
            (s.visit fuel (join directory e.name)).scan ∧
          s.Trusts (child known (join directory e.name)).known) :
    (s.build child known directory).value = (s.visit (fuel + 1) directory).scan ∧
      s.Trusts (s.build child known directory).known := by
  rw [build, visit]
  dsimp only
  split
  · exact ⟨rfl, hknown⟩
  split
  · exact ⟨rfl, hknown⟩
  rename_i hplace
  cases hlist : s.fs.list (absolute s.root directory) with
  | error e => simpa [FileSystem.sortedList, hlist, Except.map] using hknown
  | ok entries =>
    simp only [FileSystem.sortedList, hlist, Except.map]
    obtain ⟨hvalue, hthrough⟩ :=
      throughKnown_spec (fun e he => h entries hplace hlist e (mem_sortBy.1 he)) hknown
    exact ⟨congrArg _ hvalue, hthrough⟩

/-- What is looked up among trusted scans is what would be found. -/
lemma Trusts.lookup? {known : Known} (h : s.Trusts known) {directory : Text}
    {scan : Option DirectoryScan} (hscan : GlobPreset.lookup? directory known = some scan) :
    scan = (s.visit (s.fs.depthBound + 1) directory).scan :=
  h _ (Text.mem_of_lookup?_eq_some hscan)

/-- **A recalled scan is the one that would be made**, and it may be trusted from then on.

**Proof sketch.** Induction on the fuel. What is known already is trusted; otherwise the scan is
made with recalled scans of the subdirectories, and by induction these are the ones that would be
made. -/
lemma revisit_spec (hb : s.IsBounded) :
    ∀ (fuel : Nat) {names : List Text} {known : Known}, AreNames names →
      s.fs.depthBound ≤ fuel + names.length → s.Trusts known →
      (s.revisit fuel known (ofSegments names)).value = (s.visit fuel (ofSegments names)).scan ∧
        s.Trusts (s.revisit fuel known (ofSegments names)).known := by
  intro fuel
  induction fuel with
  | zero => exact fun _ _ hknown => ⟨rfl, hknown⟩
  | succ fuel ih =>
    intro names known hn hle hknown
    have hfresh : (s.visit (fuel + 1) (ofSegments names)).scan =
        (s.visit (s.fs.depthBound + 1) (ofSegments names)).scan :=
      scan_visit_eq hb hn hle (by omega)
    rw [revisit]
    cases hlookup : lookup? (ofSegments names) known with
    | some scan => exact ⟨(hknown.lookup? hlookup).trans hfresh.symm, hknown⟩
    | none =>
      obtain ⟨hvalue, hbuilt⟩ := build_spec (s.revisit fuel) fuel (ofSegments names) hknown
        fun entries _ hlist e he _ known' hknown' => by
          rw [absolute_ofSegments hn] at hlist
          have hinner := hn.append (areNames_singleton (hb.project.isName hn hlist he))
          rw [join_ofSegments hn]
          refine ih hinner ?_ hknown'
          rw [List.length_append, List.length_singleton]
          omega
      exact ⟨hvalue, hbuilt.cons (hvalue.trans hfresh)⟩

/-- The answer to a request that is no path of names. -/
lemma revisit_of_not_names (hb : s.IsBounded) (fuel : Nat) {directory : Text}
    (hno : ¬ ∃ names, AreNames names ∧ directory = ofSegments names) {known : Known}
    (hknown : s.Trusts known) :
    (s.revisit (fuel + 1) known directory).value =
        (s.visit (s.fs.depthBound + 1) directory).scan ∧
      s.Trusts (s.revisit (fuel + 1) known directory).known := by
  rw [revisit]
  cases hlookup : lookup? directory known with
  | some scan => exact ⟨hknown.lookup? hlookup, hknown⟩
  | none =>
    -- such a directory is misplaced, so its entries do not matter
    obtain ⟨hvalue, hbuilt⟩ := build_spec (s.revisit fuel) s.fs.depthBound directory hknown
      fun entries hplace _ _ _ _ _ _ =>
        absurd (exists_names_of_not_misplaced hb.real hplace) hno
    exact ⟨hvalue, hbuilt.cons hvalue⟩

/-! ### Sessions -/

/-- An answer is that of a new scanner, and leaves scans that may be trusted. -/
lemma answer_spec (hb : s.IsBounded) {known : Known} (hknown : s.Trusts known)
    (request : Option Text) :
    (s.answer known request).value =
        (if request = some [] ∨ request = some [.of '.'] then .error .projectScan
          else .ok (s.scan? (request.getD []))) ∧
      s.Trusts (s.answer known request).known := by
  unfold answer
  split
  · exact ⟨rfl, hknown⟩
  by_cases hnames : ∃ names, AreNames names ∧
      Text.dropAround (· == .of '/') (request.getD []) = ofSegments names
  · obtain ⟨names, hn, heq⟩ := hnames
    obtain ⟨hvalue, hrecalled⟩ := revisit_spec hb (s.fs.depthBound + 1) hn (by omega) hknown
    rw [heq, scan?, Scanner.request, heq]
    exact ⟨congrArg _ hvalue, hrecalled⟩
  · obtain ⟨hvalue, hrecalled⟩ := revisit_of_not_names hb s.fs.depthBound hnames hknown
    exact ⟨congrArg _ hvalue, hrecalled⟩

/-- **Each answer of a session is that of a new scanner.** -/
theorem session_outcome (hb : s.IsBounded) (requests : List (Option Text)) :
    ∀ {known : Known}, s.Trusts known →
      (s.session known requests).map Report.outcome =
        requests.map (fun request => (s.answer [] request).value) := by
  induction requests with
  | nil => exact fun _ => rfl
  | cons request rest ih =>
    intro known hknown
    obtain ⟨hvalue, hnext⟩ := answer_spec hb hknown request
    rw [session, List.map_cons, List.map_cons, ih hnext, hvalue,
      (answer_spec hb trusts_nil request).1]

end Scanner

end GlobPreset
