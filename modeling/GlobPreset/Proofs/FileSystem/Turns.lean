import GlobPreset.Proofs.FileSystem.Components

/-!
# Resolution turn by turn

The links of a path are resolved in a loop. It holds the names to come, the directory that is
reached, and the number of links that were followed. A turn takes the first name that is to come and
goes on to it; where a link stands, it puts the names of the target in front of the others and
starts again from the root. So a link may leave more names to come than there were. What becomes
fewer with every turn are the links left to follow and, as long as none is followed, the names.

## Main definitions

* `MemoryTree.Stage`, `MemoryTree.Finish` — what the loop holds, and how it ends.
* `MemoryTree.turn`, `MemoryTree.Ends` — one turn, and the loop to its end.
* `MemoryTree.Arrives` — resolving a path follows no link too many.
* `MemoryTree.Stage.IsSound` — what every turn keeps.

## Main results

* `MemoryTree.wellFounded_turn` — no loop goes on for ever.
* `MemoryTree.ends_start_iff` — the loop ends as the resolution does.
* `MemoryTree.Stage.IsSound.isReal` — where the loop arrives, no link stands on the way.
* `MemoryTree.arrives_iff_goesTo` — how many links are followed, component by component.
* `MemoryTree.resolve_append` — a longer path is resolved by resolving its start first.
* `MemoryTree.realPath_projection` — **resolving links ends, and is a compositional projection**.

## Design

Nothing is asked of the tree: its links may be registered anywhere and lead anywhere. A relative
path below a relative root may start with two dots, which the loop reads as the parent of the
directory that is reached; that is why `Stage.IsSound` admits them among the names to come.
-/

set_option autoImplicit false

namespace GlobPreset.MemoryTree

open GlobPreset.Path Location

variable {t : MemoryTree}

/-! ### Turns -/

/-- What the loop holds between two turns. -/
structure Stage where
  /-- The names to come. -/
  pending : List Text
  /-- The names of the directory that is reached. -/
  current : List Text
  /-- The number of links that were followed. -/
  followed : Nat
deriving DecidableEq, Repr

/-- How the loop ends. -/
inductive Finish where
  /-- All names are passed. -/
  | arrived (names : List Text)
  /-- A link would be one too many: its names, and those that were to come behind it. -/
  | givenUp (names : List Text)
deriving DecidableEq, Repr

/-- The names that are left of the path. -/
def Finish.names : Finish → List Text
  | arrived names => names
  | givenUp names => names

/-- What a turn leads to. -/
inductive Turn where
  | again (next : Stage)
  | ends (finish : Finish)
deriving DecidableEq, Repr

/-- The directory that a name leads to, links apart. -/
def goOn (current : List Text) (name : Text) : List Text :=
  if name = [.of '.', .of '.'] then current.dropLast else current ++ [name]

/-- One turn of the loop. -/
def turn (t : MemoryTree) : Stage → Turn
  | ⟨[], current, _⟩ => .ends (.arrived current)
  | ⟨name :: pending, current, followed⟩ =>
    match lookup? (Location.below (goOn current name)) t.links with
    | none => .again ⟨pending, goOn current name, followed⟩
    | some target =>
      if followed < maxLinks then
        .again ⟨targetNames current target ++ pending, [], followed + 1⟩
      else .ends (.givenUp (goOn current name ++ pending))

/-- From a stage, the loop ends after some turns. -/
inductive Ends (t : MemoryTree) : Stage → Finish → Prop
  | stop {s : Stage} {finish : Finish} (h : t.turn s = .ends finish) : Ends t s finish
  | again {s next : Stage} {finish : Finish} (h : t.turn s = .again next)
      (more : Ends t next finish) : Ends t s finish

section Steps

variable {name : Text} {pending current : List Text} {followed : Nat}

/-- A turn at a name that is no link goes on behind it. -/
lemma turn_of_none (h : lookup? (Location.below (goOn current name)) t.links = none) :
    t.turn ⟨name :: pending, current, followed⟩ =
      .again ⟨pending, goOn current name, followed⟩ := by
  rw [turn, h]

/-- A turn at a link starts again with its target, unless too many were followed. -/
lemma turn_of_some {target : Text}
    (h : lookup? (Location.below (goOn current name)) t.links = some target) :
    t.turn ⟨name :: pending, current, followed⟩ =
      if followed < maxLinks then .again ⟨targetNames current target ++ pending, [], followed + 1⟩
      else .ends (.givenUp (goOn current name ++ pending)) := by
  rw [turn, h]

end Steps

/-- **What a turn does** that is not the last: it goes on to a name, or follows a link. -/
lemma turn_eq_again {s next : Stage} (h : t.turn s = .again next) :
    ∃ name pending, s.pending = name :: pending ∧
      ((lookup? (Location.below (goOn s.current name)) t.links = none ∧
          next = ⟨pending, goOn s.current name, s.followed⟩) ∨
        ∃ target, lookup? (Location.below (goOn s.current name)) t.links = some target ∧
          s.followed < maxLinks ∧
          next = ⟨targetNames s.current target ++ pending, [], s.followed + 1⟩) := by
  obtain ⟨names, current, followed⟩ := s
  cases names with
  | nil => cases h
  | cons name pending =>
    refine ⟨name, pending, rfl, ?_⟩
    cases hlook : lookup? (Location.below (goOn current name)) t.links with
    | none =>
      rw [turn_of_none hlook] at h
      exact .inl ⟨rfl, (Turn.again.inj h).symm⟩
    | some target =>
      rw [turn_of_some hlook] at h
      split at h
      · rename_i hleft
        exact .inr ⟨target, rfl, hleft, (Turn.again.inj h).symm⟩
      · cases h

/-- The loop arrives where nothing is to come. -/
lemma turn_eq_arrived {s : Stage} {names : List Text} (h : t.turn s = .ends (.arrived names)) :
    s.current = names := by
  obtain ⟨pending, current, followed⟩ := s
  cases pending with
  | nil =>
    cases h
    rfl
  | cons name pending =>
    cases hlook : lookup? (Location.below (goOn current name)) t.links with
    | none =>
      rw [turn_of_none hlook] at h
      cases h
    | some target =>
      rw [turn_of_some hlook] at h
      split at h <;> cases h

/-! ### The loop ends -/

/-- The links left to follow, and the names to come. -/
def Stage.rank (s : Stage) : Nat × Nat := (maxLinks - s.followed, s.pending.length)

/-- **A turn leaves fewer links to follow**, or as many of them and fewer names to come. -/
lemma rank_lt_of_turn {s next : Stage} (h : t.turn s = .again next) :
    Prod.Lex (· < ·) (· < ·) next.rank s.rank := by
  obtain ⟨name, pending, hpending, ⟨-, rfl⟩ | ⟨target, -, hleft, rfl⟩⟩ := turn_eq_again h
  · rw [Stage.rank, Stage.rank, hpending]
    exact .right _ (Nat.lt_succ_self _)
  · exact .left _ _ (by simp only; omega)

/-- **No loop goes on for ever**, whatever the links are. -/
theorem wellFounded_turn (t : MemoryTree) : WellFounded fun next s => t.turn s = .again next :=
  Subrelation.wf rank_lt_of_turn (InvImage.wf Stage.rank (Prod.lex Nat.lt_wfRel Nat.lt_wfRel).wf)

/-- From every stage the loop ends. -/
lemma exists_ends (t : MemoryTree) (s : Stage) : ∃ finish, t.Ends s finish := by
  induction s using (wellFounded_turn t).induction with
  | h s ih =>
    cases hturn : t.turn s with
    | again next =>
      obtain ⟨finish, hends⟩ := ih next hturn
      exact ⟨finish, .again hturn hends⟩
    | ends finish => exact ⟨finish, .stop hturn⟩

/-! ### The loop is the resolution -/

section Passing

variable {s next : Stage} {finish other : Finish} {names current : List Text} {followed : Nat}

/-- Where the next turn ends, the loop ends there and nowhere else. -/
lemma ends_iff_of_ends (h : t.turn s = .ends other) : t.Ends s finish ↔ finish = other := by
  constructor
  · intro hends
    cases hends with
    | stop h' => exact Turn.ends.inj (h'.symm.trans h)
    | again h' _ => cases h'.symm.trans h
  · rintro rfl
    exact .stop h

/-- Where the next turn goes on, the loop ends where it does from there. -/
lemma ends_iff_of_again (h : t.turn s = .again next) : t.Ends s finish ↔ t.Ends next finish := by
  constructor
  · intro hends
    cases hends with
    | stop h' => cases h'.symm.trans h
    | again h' hmore => exact Turn.again.inj (h'.symm.trans h) ▸ hmore
  · exact .again h

/-- Names without a link are passed turn by turn. -/
lemma ends_iff_of_arrived {reached : List Text} (h : t.pass current names = .arrived reached) :
    t.Ends ⟨names, current, followed⟩ finish ↔ finish = .arrived reached := by
  induction names generalizing current with
  | nil =>
    cases h
    exact ends_iff_of_ends rfl
  | cons name names ih =>
    rw [pass] at h
    split at h
    · rename_i hno
      rw [ends_iff_of_again (turn_of_none hno)]
      exact ih h
    · cases h

/-- Names with a link are passed turn by turn up to the link, which is followed unless it is one too
many. -/
lemma ends_iff_of_atLink {link directory pending : List Text} {target : Text}
    (h : t.pass current names = .atLink link directory target pending) :
    t.Ends ⟨names, current, followed⟩ finish ↔
      if followed < maxLinks then
        t.Ends ⟨targetNames directory target ++ pending, [], followed + 1⟩ finish
      else finish = .givenUp (link ++ pending) := by
  induction names generalizing current with
  | nil => cases h
  | cons name names ih =>
    rw [pass] at h
    split at h
    · rename_i hno
      rw [ends_iff_of_again (turn_of_none hno)]
      exact ih h
    · rename_i hlink
      cases h
      split
      · rename_i hleft
        refine ends_iff_of_again ?_
        rw [turn_of_some hlink, if_pos hleft]
      · rename_i hfull
        refine ends_iff_of_ends ?_
        rw [turn_of_some hlink, if_neg hfull]
        rfl

end Passing

/-- How the resolution of names ends. -/
def finishOf (t : MemoryTree) (links : Nat) (names : List Text) : Finish :=
  match t.arrive? links names with
  | some r => .arrived r.1
  | none => .givenUp (t.resolve links names)

/-- Where names arrive, their resolution leads. -/
lemma resolve_of_arrive? : ∀ {links : Nat} {names real : List Text} {left : Nat},
    t.arrive? links names = some (real, left) → t.resolve links names = real := by
  intro links
  induction links with
  | zero =>
    intro names real left h
    rw [arrive?] at h
    rw [resolve]
    cases hpass : t.pass [] names with
    | arrived reached =>
      rw [hpass] at h
      cases h
      rfl
    | atLink link directory target pending =>
      rw [hpass] at h
      cases h
  | succ links ih =>
    intro names real left h
    rw [arrive?] at h
    rw [resolve]
    cases hpass : t.pass [] names with
    | arrived reached =>
      rw [hpass] at h
      cases h
      rfl
    | atLink link directory target pending =>
      rw [hpass] at h
      exact ih h

/-- The loop finishes with the names that resolving gives. -/
lemma names_finishOf (links : Nat) (names : List Text) :
    (t.finishOf links names).names = t.resolve links names := by
  unfold finishOf
  split
  · rename_i r hr
    exact (resolve_of_arrive? hr).symm
  · rfl

/-- **The loop ends as the resolution does**, with the links that are left to follow. -/
lemma ends_iff_finishOf {finish : Finish} : ∀ {links followed : Nat} {names : List Text},
    links + followed = maxLinks →
      (t.Ends ⟨names, [], followed⟩ finish ↔ finish = t.finishOf links names) := by
  intro links
  induction links with
  | zero =>
    intro followed names hsum
    cases hpass : t.pass [] names with
    | arrived reached => rw [ends_iff_of_arrived hpass, finishOf, arrive?, hpass]
    | atLink link directory target pending =>
      rw [ends_iff_of_atLink hpass, if_neg (by omega), finishOf, arrive?, resolve, hpass]
  | succ links ih =>
    intro followed names hsum
    cases hpass : t.pass [] names with
    | arrived reached => rw [ends_iff_of_arrived hpass, finishOf, arrive?, hpass]
    | atLink link directory target pending =>
      rw [ends_iff_of_atLink hpass, if_pos (by omega), ih (by omega)]
      simp only [finishOf, arrive?, resolve, hpass]

/-- The stage that the resolution of a path starts from. -/
def start (t : MemoryTree) (path : Text) : Stage := ⟨namesOf (t.locate path), [], 0⟩

/-- **The loop from the start of a path** ends as its resolution does. -/
theorem ends_start_iff {path : Text} {finish : Finish} :
    t.Ends (t.start path) finish ↔
      finish = t.finishOf maxLinks (namesOf (t.locate path)) :=
  ends_iff_finishOf rfl

/-- What the loop leaves of a path is its real path. -/
lemma Ends.realNames_eq {path : Text} {finish : Finish} (h : t.Ends (t.start path) finish) :
    t.realNames path = finish.names := by
  rw [ends_start_iff.1 h, names_finishOf]
  rfl

/-- Resolving the path follows at most `maxLinks` links. -/
def Arrives (t : MemoryTree) (path : Text) : Prop :=
  ∃ names, t.Ends (t.start path) (.arrived names)

/-- A path arrives if its names do, with the links that are allowed. -/
lemma arrives_iff {path : Text} :
    t.Arrives path ↔ (t.arrive? maxLinks (namesOf (t.locate path))).isSome = true := by
  simp only [Arrives, ends_start_iff, finishOf]
  cases t.arrive? maxLinks (namesOf (t.locate path)) <;> simp

instance (t : MemoryTree) (path : Text) : Decidable (t.Arrives path) :=
  decidable_of_iff _ arrives_iff.symm

/-- The loop for a path that arrives ends at its real names. -/
lemma Arrives.ends {path : Text} (h : t.Arrives path) :
    t.Ends (t.start path) (.arrived (t.realNames path)) := by
  obtain ⟨names, hends⟩ := h
  rwa [hends.realNames_eq]

/-! ### No link stands on the way -/

/-- No link stands at or in front of the directory that is reached, and what is to come are names
and double dots. -/
structure Stage.IsSound (t : MemoryTree) (s : Stage) : Prop where
  /-- The directory is real. -/
  real : t.IsReal s.current
  /-- Names and double dots are to come. -/
  steps : ∀ name ∈ s.pending, IsName name ∨ name = [.of '.', .of '.']

/-- **Every turn keeps a stage sound.** -/
lemma Stage.IsSound.turn {s next : Stage} (h : s.IsSound t) (hturn : t.turn s = .again next) :
    next.IsSound t := by
  obtain ⟨name, pending, hpending, hcase⟩ := turn_eq_again hturn
  have hsteps := h.steps
  rw [hpending] at hsteps
  obtain ⟨hname, hrest⟩ := List.forall_mem_cons.1 hsteps
  rcases hcase with ⟨hno, rfl⟩ | ⟨target, -, -, rfl⟩
  · refine ⟨?_, hrest⟩
    rcases hname with hname | rfl
    · rw [goOn, if_neg hname.ne_dots] at hno ⊢
      exact h.real.concat hname hno
    · exact h.real.dropLast
  · refine ⟨isReal_nil, fun x hx => ?_⟩
    rcases List.mem_append.1 hx with hx | hx
    · exact .inl (targetNames_areNames h.real.1 target x hx)
    · exact hrest x hx

/-- **Where the loop arrives, no link stands on the way.** -/
lemma Stage.IsSound.isReal {s : Stage} {names : List Text} (h : s.IsSound t)
    (hends : t.Ends s (.arrived names)) : t.IsReal names := by
  generalize hfinish : Finish.arrived names = finish at hends
  induction hends with
  | stop hturn =>
    subst hfinish
    exact turn_eq_arrived hturn ▸ h.real
  | again hturn _ ih => exact ih (h.turn hturn) hfinish

/-- A real directory that is not the root is no link. -/
lemma IsReal.isLink_eq {names : List Text} (h : t.IsReal names) (hne : names ≠ []) :
    t.isLink (.below names) = false := by
  obtain ⟨front, name, rfl⟩ := List.eq_nil_or_concat' names |>.resolve_left hne
  have hpass := h.2
  rw [pass_append, h.left.2] at hpass
  cases hlook : lookup? (Location.below (front ++ [name])) t.links with
  | none => simp [isLink, hlook]
  | some target =>
    have hname : IsName name := h.1 name (by simp)
    simp [pass, hname.ne_dots, hlook] at hpass

/-- A real directory is left as it is. -/
lemma IsReal.realNames_toText {names : List Text} (h : t.IsReal names) :
    t.realNames (Location.below names).toText = names :=
  realNames_of_arrive? (isProper_below h.1) (arrive?_of_pass h.2)

/-! ### The names of a path -/

/-- Names and double dots are gone through to names and double dots. -/
lemma mem_walkSegment {anchor : Anchor} {done : List Text} {segment x : Text}
    (hdone : ∀ s ∈ done, IsName s ∨ s = [.of '.', .of '.']) (hslash : .of '/' ∉ segment)
    (hx : x ∈ walkSegment anchor done segment) : IsName x ∨ x = [.of '.', .of '.'] := by
  unfold walkSegment at hx
  split at hx
  · exact hdone x hx
  · rename_i hstay
    split at hx
    · rename_i hdots
      cases done with
      | nil =>
        dsimp only at hx
        split at hx
        · exact .inr ((List.mem_singleton.1 hx).trans hdots)
        · cases hx
      | cons last rest =>
        dsimp only at hx
        split at hx
        · rcases List.mem_cons.1 hx with rfl | hx
          · exact .inr hdots
          · exact hdone x hx
        · exact hdone x (List.mem_cons_of_mem _ hx)
    · rename_i hdots
      rcases List.mem_cons.1 hx with rfl | hx
      · exact .inl ⟨fun h => hstay (.inl h), hslash, fun h => hstay (.inr h), hdots⟩
      · exact hdone x hx

/-- What is gone through of any path are names and double dots. -/
lemma mem_namesOf_ofText {path x : Text} (hx : x ∈ namesOf (ofText path)) :
    IsName x ∨ x = [.of '.', .of '.'] := by
  have hfold : ∀ (anchor : Anchor) (segs done : List Text), (∀ s ∈ segs, .of '/' ∉ s) →
      (∀ s ∈ done, IsName s ∨ s = [.of '.', .of '.']) →
      ∀ s ∈ segs.foldl (walkSegment anchor) done, IsName s ∨ s = [.of '.', .of '.'] := by
    intro anchor segs
    induction segs with
    | nil => exact fun _ _ hdone => hdone
    | cons segment segs ih =>
      intro done hsegs hdone
      obtain ⟨hsegment, hrest⟩ := List.forall_mem_cons.1 hsegs
      exact ih _ hrest fun s hs => mem_walkSegment hdone hsegment hs
  have hnormal : ∀ s ∈ normalSegments (anchorOf path) (Path.segments path),
      IsName s ∨ s = [.of '.', .of '.'] := fun s hs =>
    hfold _ _ [] (fun s hs => Text.not_mem_of_mem_splitOn hs) (by simp) s (List.mem_reverse.1 hs)
  unfold ofText at hx
  dsimp only at hx
  split at hx
  · -- a relative path that leads nowhere is a dot, which is not gone through
    cases hx
  · unfold namesOf at hx
    split at hx
    · exact hnormal x (List.mem_of_mem_drop hx)
    · exact hnormal x hx

/-- The resolution of every path starts from a sound stage. -/
lemma isSound_start (path : Text) : (t.start path).IsSound t := by
  refine ⟨isReal_nil, fun name hname => ?_⟩
  have hread : ∃ text, t.locate path = ofText text := by
    unfold locate
    split
    · exact ⟨_, rfl⟩
    · exact ⟨_, rfl⟩
  obtain ⟨text, htext⟩ := hread
  rw [start, htext] at hname
  exact mem_namesOf_ofText hname

/-- The names of an absolute path are its segments in normal form. -/
lemma namesOf_locate {path : Text} (hpath : path.head? = some (.of '/')) :
    namesOf (t.locate path) = normalFrom [] (Path.segments path) := by
  have hproper := ofText_isProper hpath
  rw [locate, if_pos hpath, ← segments_ofText hpath]
  unfold namesOf
  split
  · rename_i hrelative
    exact absurd hrelative hproper.absolute
  · rfl

/-- The names of an absolute path that is continued by a name, whether or not it ends with a
slash. -/
lemma namesOf_locate_append {path name : Text} (hpath : path.head? = some (.of '/'))
    (hname : IsName name) :
    namesOf (t.locate (path ++ .of '/' :: name)) = namesOf (t.locate path) ++ [name] := by
  have hlonger : (path ++ .of '/' :: name).head? = some (.of '/') := by
    rw [List.head?_append, hpath]
    rfl
  have hsegments : Path.segments name = [name] := Text.splitOn_of_not_mem hname.noSlash
  rw [namesOf_locate hlonger, namesOf_locate hpath, segments_append_slash, hsegments,
    normalFrom_append, normalFrom_step hname.isStep, normalFrom_nil]

/-- An absolute path is located by names. -/
lemma areNames_namesOf_locate {path : Text} (hpath : path.head? = some (.of '/')) :
    AreNames (namesOf (t.locate path)) := by
  rw [namesOf_locate hpath, ← segments_ofText hpath]
  exact (ofText_isProper hpath).names

/-- **How many links are followed**: the resolution of an absolute path arrives exactly if the path
leads somewhere along at most `maxLinks` links, component by component through targets in normal
form. -/
theorem arrives_iff_goesTo (h : t.Rooted) {path : Text} (hpath : path.head? = some (.of '/')) :
    t.Arrives path ↔ ∃ followed last, followed ≤ maxLinks ∧
      t.straightened.GoesTo followed [] (namesOf (t.locate path)) last := by
  have hn := areNames_namesOf_locate (t := t) hpath
  rw [arrives_iff, Option.isSome_iff_exists]
  constructor
  · rintro ⟨⟨last, left⟩, harrive⟩
    obtain ⟨followed, hsum, hgoes⟩ := (arrive?_iff_straightened h hn).1 harrive
    exact ⟨followed, last, by omega, hgoes⟩
  · rintro ⟨followed, last, hle, hgoes⟩
    exact ⟨(last, maxLinks - followed), (arrive?_iff_straightened h hn).2
      ⟨followed, by omega, hgoes⟩⟩

/-! ### Longer paths -/

/-- **A longer path is resolved by resolving its start first**, as long as no link is one too many:
what the start leads to, continued in the same way, leads to the same. -/
lemma resolve_append {links : Nat} {names rest : List Text} (hn : AreNames names)
    (hrest : AreNames rest) (h : (t.arrive? links (names ++ rest)).isSome = true) :
    t.resolve links (names ++ rest) = t.resolve links (t.resolve links names ++ rest) := by
  obtain ⟨⟨last, left⟩, hall⟩ := Option.isSome_iff_exists.1 h
  have hbind := hall
  rw [arrive?_append rest hn] at hbind
  obtain ⟨⟨real, between⟩, hstart, hmore⟩ := Option.bind_eq_some_iff.1 hbind
  obtain ⟨hreal, -, hle, hresolve⟩ := arrive?_eq_some hn hstart
  -- what its start leads to is continued with all links, of which some were used up before
  have hagain := arrive?_add (links - between) (hreal.append hrest) hmore
  rw [show between + (links - between) = links by omega] at hagain
  rw [resolve_of_arrive? hall, hresolve, resolve_of_arrive? hagain]

/-- **The real path of an entry** is that of the entry of its name in the real path of its
directory. -/
lemma realPath_append {path name : Text} (hpath : path.head? = some (.of '/')) (hname : IsName name)
    (h : t.Arrives (path ++ .of '/' :: name)) :
    t.fileSystem.realPath (path ++ .of '/' :: name) =
      t.fileSystem.realPath (t.fileSystem.realPath path ++ .of '/' :: name) := by
  have hn := areNames_namesOf_locate (t := t) hpath
  rw [arrives_iff, namesOf_locate_append hpath hname] at h
  have hreal : AreNames (t.realNames path) := resolve_areNames hn
  have hhead : (Location.below (t.realNames path)).toText.head? = some (.of '/') :=
    (isProper_below hreal).head?_toText
  have hagain : namesOf (t.locate (Location.below (t.realNames path)).toText) =
      t.realNames path := by
    rw [locate_toText (isProper_below hreal)]
    rfl
  have hnames : t.realNames (path ++ .of '/' :: name) =
      t.realNames ((Location.below (t.realNames path)).toText ++ .of '/' :: name) := by
    rw [realNames, realNames, namesOf_locate_append hpath hname, namesOf_locate_append hhead hname,
      hagain]
    exact resolve_append hn (areNames_singleton hname) h
  show (Location.below _).toText = (Location.below _).toText
  rw [hnames]
  rfl

/-! ### Real paths -/

/-- **Resolving links ends, and is a compositional projection.** Whatever the links of a tree are,
the loop ends for every path, and leaves its real path. Where not too many links are followed, no
link stands on the way to the real path, which is its own real path; and an absolute path with a
name behind it has the real path that its own real path has with the name behind it.

**Proof sketch.** A turn that follows a link leaves fewer links to follow, and one that does not
leaves fewer names to come. No turn lets a link stand on the way to the directory that is reached.
What the start of a path leads to is passed without a link when it is resolved again, so it may as
well stand in place of the start. -/
theorem realPath_projection (t : MemoryTree) :
    (∀ path, ∃ finish, t.Ends (t.start path) finish ∧
        t.fileSystem.realPath path = (Location.below finish.names).toText) ∧
      (∀ path, t.Arrives path →
        (∀ front, front ≠ [] → front <+: t.realNames path → t.isLink (.below front) = false) ∧
          t.fileSystem.realPath (t.fileSystem.realPath path) = t.fileSystem.realPath path) ∧
      ∀ path name, path.head? = some (.of '/') → IsName name → t.Arrives (path ++ .of '/' :: name) →
        t.fileSystem.realPath (path ++ .of '/' :: name) =
          t.fileSystem.realPath (t.fileSystem.realPath path ++ .of '/' :: name) := by
  refine ⟨fun path => ?_, fun path h => ?_, fun path name => realPath_append⟩
  · obtain ⟨finish, hends⟩ := exists_ends t (t.start path)
    refine ⟨finish, hends, ?_⟩
    rw [← hends.realNames_eq]
    rfl
  · have hreal : t.IsReal (t.realNames path) := (isSound_start path).isReal h.ends
    constructor
    · rintro front hne ⟨rest, hrest⟩
      rw [← hrest] at hreal
      exact hreal.left.isLink_eq hne
    · exact congrArg (fun names => (Location.below names).toText) hreal.realNames_toText

/-- A directory under a second name, with a link in it that leads back over that name, beside two
links that lead to each other. -/
def ringTree : MemoryTree :=
  .build "/p".toText [.file "real/docs/x".toText [], .link "in".toText "real".toText,
    .link "real/self".toText "../in/docs".toText, .link "ring/a".toText "b".toText,
    .link "ring/b".toText "../ring/a".toText]

/-- The real path of a file behind the links is put together from that of its directory, and the two
links are given up. -/
theorem realPath_projection_ringTree :
    ringTree.Arrives "/p/in/self/x".toText ∧
      ringTree.fileSystem.realPath "/p/in/self".toText = "/p/real/docs".toText ∧
      ringTree.fileSystem.realPath "/p/in/self/x".toText = "/p/real/docs/x".toText ∧
      ringTree.isLink (.below ["p".toText, "real".toText]) = false ∧
      ringTree.fileSystem.realPath "/p/real/docs".toText = "/p/real/docs".toText ∧
      (∃ finish, ringTree.Ends (ringTree.start "/p/ring/a/x".toText) finish) ∧
      ¬ ringTree.Arrives "/p/ring/a/x".toText := by
  obtain ⟨hends, hprojection, hcompose⟩ := realPath_projection ringTree
  have hdirectory : ringTree.fileSystem.realPath "/p/in/self".toText = "/p/real/docs".toText := by
    decide +kernel
  have hnames : ringTree.realNames "/p/in/self".toText =
      ["p".toText, "real".toText, "docs".toText] := by decide +kernel
  have harrives : ringTree.Arrives "/p/in/self/x".toText := by decide +kernel
  have hfile := hcompose "/p/in/self".toText "x".toText rfl (by decide) harrives
  obtain ⟨hfronts, hagain⟩ := hprojection "/p/in/self".toText (by decide +kernel)
  rw [hdirectory] at hfile hagain
  obtain ⟨finish, hfinish, -⟩ := hends "/p/ring/a/x".toText
  refine ⟨harrives, hdirectory, hfile.trans (by decide +kernel), hfronts _ (by simp) ?_, hagain,
    ⟨finish, hfinish⟩, by decide +kernel⟩
  rw [hnames]
  exact ⟨["docs".toText], rfl⟩

/-- A chain of links, each of which leads to the next character. -/
def chainTree (links : Nat) : MemoryTree where
  root := .top
  files := []
  directories := [.top]
  links := (List.range links).map fun i =>
    (.below [[CodePoint.ofNat (65 + i)]], [CodePoint.ofNat (66 + i)])
  specials := []
  unreadable := []

/-- A chain with one link too many is given up in front of its last link, which can be followed. -/
example :
    (chainTree 41).fileSystem.realPath "/A".toText = "/i".toText ∧
      (chainTree 41).fileSystem.realPath "/i".toText = "/j".toText := by decide +kernel

end GlobPreset.MemoryTree
