import GlobPreset.Proofs.FileSystem.Agreement
import GlobPreset.Proofs.FileSystem.Ways

/-!
# Resolution component by component

An operating system of the POSIX family resolves a path one component after another: the target of a
link is gone through from the real directory that holds the link, and two dots go back from the
directory that is really reached. A tree in memory cuts two dots out of a target as a text, together
with the name in front of them. That comes to the same unless the name is one of a link.

## Main definitions

* `MemoryTree.GoesTo` — where segments lead, component by component, along how many links.
* `MemoryTree.IsDetourFree` — no target has two dots behind a link.
* `MemoryTree.straightened` — the tree whose targets are in normal form.

## Main results

* `MemoryTree.arrive?_eq_some_iff` — **without detours, resolution goes component by component**.
* `MemoryTree.realPath_of_goesTo` — the real path of a path that follows not too many links.
* `MemoryTree.arrive?_iff_straightened` — in every tree, resolution goes component by component
  through the targets in normal form.
* `MemoryTree.not_realPath_of_goesTo` — a detour that is cut short.

## Design

Resolution starts again from the root after each link, and goes on from where it was only because no
link stands on what has been passed (`IsReal`). So the two ways to go through a target are compared
from the directory that the target starts from, segment by segment; they part where a link is met,
and from there on no dots may follow.
-/

set_option autoImplicit false

namespace GlobPreset.MemoryTree

open GlobPreset.Path Location
open Disk (IsStep startOf isStep_cases)

variable {t : MemoryTree}

/-! ### Component by component -/

/-- Going through segments from a real directory, component by component, ends at `last` after so
many links. What is missing is kept as it is. -/
inductive GoesTo (t : MemoryTree) : (links : Nat) → (current segs last : List Text) → Prop
  /-- Without segments there is nowhere to go. -/
  | done {current : List Text} : GoesTo t 0 current [] current
  /-- An empty segment and a dot stay. -/
  | stay {links : Nat} {current segs last : List Text} {s : Text} (hs : s = [] ∨ s = [.of '.'])
      (more : GoesTo t links current segs last) : GoesTo t links current (s :: segs) last
  /-- Two dots go back from where the segments in front of them really led. -/
  | back {links : Nat} {current segs last : List Text}
      (more : GoesTo t links current.dropLast segs last) :
      GoesTo t links current ([.of '.', .of '.'] :: segs) last
  /-- A name that is no link is gone on to. -/
  | enter {links : Nat} {current segs last : List Text} {s : Text} (hs : IsStep s)
      (hno : lookup? (Location.below (current ++ [s])) t.links = none)
      (more : GoesTo t links (current ++ [s]) segs last) : GoesTo t links current (s :: segs) last
  /-- A link is followed from the directory that holds it. -/
  | follow {links : Nat} {current segs last : List Text} {s target : Text} (hs : IsStep s)
      (hlink : lookup? (Location.below (current ++ [s])) t.links = some target)
      (more : GoesTo t links (startOf current target) (Path.segments target ++ segs) last) :
      GoesTo t (links + 1) current (s :: segs) last

section Steps

variable {links : Nat} {current segs last : List Text} {s target : Text}

/-- No segments lead nowhere else, and through no link. -/
lemma goesTo_nil_iff : t.GoesTo links current [] last ↔ links = 0 ∧ current = last := by
  constructor
  · intro h
    cases h
    exact ⟨rfl, rfl⟩
  · rintro ⟨rfl, rfl⟩
    exact .done

/-- A segment that does not count leads nowhere else. -/
lemma goesTo_stay_iff (hs : s = [] ∨ s = [.of '.']) :
    t.GoesTo links current (s :: segs) last ↔ t.GoesTo links current segs last := by
  refine ⟨fun h => ?_, .stay hs⟩
  cases h with
  | stay _ hmore => exact hmore
  | back _ => exact absurd hs (by decide)
  | enter hs' _ _ => exact absurd hs (not_or.2 ⟨hs'.ne_nil, hs'.ne_dot⟩)
  | follow hs' _ _ => exact absurd hs (not_or.2 ⟨hs'.ne_nil, hs'.ne_dot⟩)

/-- Two dots lead to the directory above. -/
lemma goesTo_back_iff :
    t.GoesTo links current ([.of '.', .of '.'] :: segs) last ↔
      t.GoesTo links current.dropLast segs last := by
  refine ⟨fun h => ?_, .back⟩
  cases h with
  | stay hs _ => exact absurd hs (by decide)
  | back hmore => exact hmore
  | enter hs _ _ => exact absurd rfl hs.ne_dots
  | follow hs _ _ => exact absurd rfl hs.ne_dots

/-- A name that is no link leads to what is called so. -/
lemma goesTo_enter_iff (hs : IsStep s)
    (hno : lookup? (Location.below (current ++ [s])) t.links = none) :
    t.GoesTo links current (s :: segs) last ↔ t.GoesTo links (current ++ [s]) segs last := by
  refine ⟨fun h => ?_, .enter hs hno⟩
  cases h with
  | stay hs' _ => exact absurd hs' (not_or.2 ⟨hs.ne_nil, hs.ne_dot⟩)
  | back _ => exact absurd rfl hs.ne_dots
  | enter _ _ hmore => exact hmore
  | follow _ hlink _ =>
    rw [hno] at hlink
    cases hlink

/-- A link leads on through its target, and is one of the links that are met. -/
lemma goesTo_follow_iff (hs : IsStep s)
    (hlink : lookup? (Location.below (current ++ [s])) t.links = some target) :
    t.GoesTo links current (s :: segs) last ↔ ∃ left, links = left + 1 ∧
      t.GoesTo left (startOf current target) (Path.segments target ++ segs) last := by
  constructor
  · intro h
    cases h with
    | stay hs' _ => exact absurd hs' (not_or.2 ⟨hs.ne_nil, hs.ne_dot⟩)
    | back _ => exact absurd rfl hs.ne_dots
    | enter _ hno _ =>
      rw [hno] at hlink
      cases hlink
    | @follow left _ _ _ _ target' _ hlink' hmore =>
      obtain rfl : target' = target := Option.some.inj (hlink'.symm.trans hlink)
      exact ⟨left, rfl, hmore⟩
  · rintro ⟨left, rfl, hmore⟩
    exact .follow hs hlink hmore

end Steps

namespace GoesTo

variable {links more : Nat} {current segs rest mid last : List Text}

/-- Going on from where some segments led. -/
lemma append (h : t.GoesTo links current segs mid) (hmore : t.GoesTo more mid rest last) :
    t.GoesTo (links + more) current (segs ++ rest) last := by
  induction h with
  | done => rwa [Nat.zero_add]
  | stay hs _ ih => exact .stay hs (ih hmore)
  | back _ ih => exact .back (ih hmore)
  | enter hs hno _ ih => exact .enter hs hno (ih hmore)
  | follow hs hlink _ ih =>
    have hrest := ih hmore
    rw [List.append_assoc] at hrest
    rw [Nat.add_right_comm]
    exact .follow hs hlink hrest

/-- **Segments in front lead somewhere**, and the others on from there. -/
lemma split (h : t.GoesTo links current (segs ++ rest) last) :
    ∃ first second mid, t.GoesTo first current segs mid ∧ t.GoesTo second mid rest last ∧
      links = first + second := by
  generalize hall : segs ++ rest = all at h
  induction h generalizing segs with
  | done =>
    obtain ⟨rfl, rfl⟩ := List.append_eq_nil_iff.1 hall
    exact ⟨0, 0, _, .done, .done, rfl⟩
  | stay hs hmore ih =>
    rcases List.append_eq_cons_iff.1 hall with ⟨rfl, rfl⟩ | ⟨segs, rfl, hrest⟩
    · exact ⟨0, _, _, .done, .stay hs hmore, (Nat.zero_add _).symm⟩
    · obtain ⟨first, second, mid, hfirst, hsecond, heq⟩ := ih hrest.symm
      exact ⟨first, second, mid, .stay hs hfirst, hsecond, heq⟩
  | back hmore ih =>
    rcases List.append_eq_cons_iff.1 hall with ⟨rfl, rfl⟩ | ⟨segs, rfl, hrest⟩
    · exact ⟨0, _, _, .done, .back hmore, (Nat.zero_add _).symm⟩
    · obtain ⟨first, second, mid, hfirst, hsecond, heq⟩ := ih hrest.symm
      exact ⟨first, second, mid, .back hfirst, hsecond, heq⟩
  | enter hs hno hmore ih =>
    rcases List.append_eq_cons_iff.1 hall with ⟨rfl, rfl⟩ | ⟨segs, rfl, hrest⟩
    · exact ⟨0, _, _, .done, .enter hs hno hmore, (Nat.zero_add _).symm⟩
    · obtain ⟨first, second, mid, hfirst, hsecond, heq⟩ := ih hrest.symm
      exact ⟨first, second, mid, .enter hs hno hfirst, hsecond, heq⟩
  | follow hs hlink hmore ih =>
    rcases List.append_eq_cons_iff.1 hall with ⟨rfl, rfl⟩ | ⟨segs, rfl, hrest⟩
    · exact ⟨0, _, _, .done, .follow hs hlink hmore, (Nat.zero_add _).symm⟩
    · obtain ⟨first, second, mid, hfirst, hsecond, heq⟩ := ih (by rw [hrest, List.append_assoc])
      exact ⟨first + 1, second, mid, .follow hs hlink hfirst, hsecond, by omega⟩

end GoesTo

/-- What leads to the same from everywhere may be put behind other segments. -/
lemma goesTo_append_congr {segs rest rest' : List Text}
    (h : ∀ links current last,
      t.GoesTo links current rest last ↔ t.GoesTo links current rest' last)
    (links : Nat) (current last : List Text) :
    t.GoesTo links current (segs ++ rest) last ↔ t.GoesTo links current (segs ++ rest') last := by
  constructor
  · intro hgoes
    obtain ⟨first, second, mid, hfirst, hsecond, rfl⟩ := hgoes.split
    exact hfirst.append ((h _ _ _).1 hsecond)
  · intro hgoes
    obtain ⟨first, second, mid, hfirst, hsecond, rfl⟩ := hgoes.split
    exact hfirst.append ((h _ _ _).2 hsecond)

/-! ### Past no link -/

variable (t) in
/-- No link stands at the names or in front of them. -/
def IsReal (names : List Text) : Prop := AreNames names ∧ t.pass [] names = .arrived names

/-- The root is a real place. -/
lemma isReal_nil : t.IsReal [] := ⟨areNames_nil, rfl⟩

/-- Names in front of names past no link. -/
lemma IsReal.left {names rest : List Text} (h : t.IsReal (names ++ rest)) : t.IsReal names := by
  refine ⟨h.1.left, ?_⟩
  have hpass := h.2
  rw [pass_append] at hpass
  cases hfront : t.pass [] names with
  | arrived reached =>
    have heq := pass_eq_arrived h.1.left hfront
    rw [heq, List.nil_append]
  | atLink link directory target pending =>
    rw [hfront] at hpass
    cases hpass

/-- What contains a real place is a real place. -/
lemma IsReal.dropLast {names : List Text} (h : t.IsReal names) : t.IsReal names.dropLast := by
  obtain ⟨rest, hrest⟩ := names.dropLast_prefix
  rw [← hrest] at h
  exact h.left

/-- One more name that is no link. -/
lemma IsReal.concat {names : List Text} (h : t.IsReal names) {s : Text} (hs : IsName s)
    (hno : lookup? (Location.below (names ++ [s])) t.links = none) : t.IsReal (names ++ [s]) := by
  refine ⟨h.1.append (areNames_singleton hs), ?_⟩
  rw [pass_append, h.2]
  simp [pass, hs.ne_dots, hno]

/-- A link that is met is held by a real directory. -/
lemma isReal_of_pass {names link directory pending : List Text} {target : Text}
    (hn : AreNames names) (h : t.pass [] names = .atLink link directory target pending) :
    t.IsReal directory := by
  obtain ⟨-, before, name, rfl, hbefore, -⟩ := pass_eq_atLink hn h
  rw [List.nil_append] at hbefore
  subst hbefore
  refine ⟨hn.left, ?_⟩
  rw [pass_append] at h
  cases hfront : t.pass [] directory with
  | arrived reached =>
    have heq := pass_eq_arrived hn.left hfront
    rw [heq, List.nil_append]
  | atLink link' directory' target' pending' =>
    -- the link would stand in front of itself
    rw [hfront] at h
    have hpending : pending' ++ name :: pending = pending := by
      simp only [Passage.atLink.injEq] at h
      exact h.2.2.2
    have hlength := congrArg List.length hpending
    simp only [List.length_append, List.length_cons] at hlength
    omega

/-- Names that are passed without a link lead component by component to themselves. -/
lemma goesTo_append_iff_of_pass {names : List Text} (hn : AreNames names) {links : Nat}
    {segs last : List Text} : ∀ {current reached : List Text},
      t.pass current names = .arrived reached →
        (t.GoesTo links current (names ++ segs) last ↔ t.GoesTo links reached segs last) := by
  induction names with
  | nil =>
    intro current reached h
    cases h
    rfl
  | cons name names ih =>
    intro current reached h
    have hname : IsName name := hn name List.mem_cons_self
    rw [pass, if_neg hname.ne_dots] at h
    split at h
    · rename_i hno
      rw [List.cons_append, goesTo_enter_iff hname.isStep hno]
      exact ih (fun s hs => hn s (List.mem_cons_of_mem _ hs)) h
    · cases h

/-- From the root, a real directory is gone to. -/
lemma IsReal.goesTo_iff {names : List Text} (h : t.IsReal names) {links : Nat}
    {segs last : List Text} :
    t.GoesTo links [] (names ++ segs) last ↔ t.GoesTo links names segs last :=
  goesTo_append_iff_of_pass h.1 h.2

/-- **A link that is met** is followed from the directory that holds it. -/
lemma goesTo_iff_of_pass {names : List Text} (hn : AreNames names) {links : Nat}
    {last : List Text} : ∀ {current link directory pending : List Text} {target : Text},
      t.pass current names = .atLink link directory target pending →
        (t.GoesTo links current names last ↔ ∃ left, links = left + 1 ∧
          t.GoesTo left (startOf directory target) (Path.segments target ++ pending) last) := by
  induction names with
  | nil =>
    intro current link directory pending target h
    cases h
  | cons name names ih =>
    intro current link directory pending target h
    have hname : IsName name := hn name List.mem_cons_self
    rw [pass, if_neg hname.ne_dots] at h
    split at h
    · rename_i hno
      rw [goesTo_enter_iff hname.isStep hno]
      exact ih (fun s hs => hn s (List.mem_cons_of_mem _ hs)) h
    · rename_i hlink
      cases h
      exact goesTo_follow_iff hname.isStep hlink

/-! ### Targets as texts -/

/-- The normal form of segments behind the names of a directory. -/
def normalFrom (start segs : List Text) : List Text :=
  (segs.foldl (walkSegment .root) start.reverse).reverse

section Normal

variable {start segs : List Text} {s : Text}

/-- No segments leave the names as they are. -/
@[simp] lemma normalFrom_nil : normalFrom start [] = start := List.reverse_reverse start

/-- A segment that does not count leaves the names as they are. -/
lemma normalFrom_stay (hs : s = [] ∨ s = [.of '.']) :
    normalFrom start (s :: segs) = normalFrom start segs := by
  have hstep : walkSegment .root start.reverse s = start.reverse := by
    unfold walkSegment
    rw [if_pos hs]
  rw [normalFrom, List.foldl_cons, hstep]
  rfl

/-- Two dots go back to the containing directory as a text. -/
lemma normalFrom_back (hstart : AreNames start) :
    normalFrom start ([.of '.', .of '.'] :: segs) = normalFrom start.dropLast segs := by
  have hstep : walkSegment .root start.reverse [.of '.', .of '.'] = start.dropLast.reverse := by
    unfold walkSegment
    rw [if_neg (by decide), if_pos rfl]
    rcases List.eq_nil_or_concat' start with rfl | ⟨front, last, rfl⟩
    · rfl
    · have hlast : last ≠ [.of '.', .of '.'] := (hstart last (by simp)).ne_dots
      simp [hlast]
  rw [normalFrom, List.foldl_cons, hstep]
  rfl

/-- Any other segment but two dots is added to the names. -/
lemma normalFrom_step (hs : IsStep s) :
    normalFrom start (s :: segs) = normalFrom (start ++ [s]) segs := by
  have hstep : walkSegment .root start.reverse s = (start ++ [s]).reverse := by
    unfold walkSegment
    rw [if_neg (not_or.2 ⟨hs.ne_nil, hs.ne_dot⟩), if_neg hs.ne_dots]
    simp
  rw [normalFrom, List.foldl_cons, hstep]
  rfl

/-- Segments are worked off one after another. -/
lemma normalFrom_append (more : List Text) :
    normalFrom start (segs ++ more) = normalFrom (normalFrom start segs) more := by
  rw [normalFrom, List.foldl_append, normalFrom, normalFrom, List.reverse_reverse]

/-- Names are in normal form. -/
lemma normalFrom_of_areNames {names : List Text} (hn : AreNames names) :
    normalFrom [] names = names :=
  normalSegments_of_areNames .root hn

/-- Without two dots, the names of the directory stay in front. -/
lemma normalFrom_eq_append (hsegs : ∀ s ∈ segs, s ≠ [.of '.', .of '.']) (start : List Text) :
    normalFrom start segs = start ++ normalFrom [] segs := by
  induction segs generalizing start with
  | nil => simp
  | cons s segs ih =>
    obtain ⟨hs, hrest⟩ := List.forall_mem_cons.1 hsegs
    rcases isStep_cases s with hstay | hback | hstep
    · rw [normalFrom_stay hstay, normalFrom_stay hstay, ih hrest]
    · exact absurd hback hs
    · rw [normalFrom_step hstep, normalFrom_step hstep, ih hrest, ih hrest ([] ++ [s])]
      simp

end Normal

/-- The segments of an absolute path are in normal form from the root. -/
lemma segments_ofText {path : Text} (hhead : path.head? = some (.of '/')) :
    (ofText path).segments = normalFrom [] (Path.segments path) := by
  have ha := anchorOf_ne_relative hhead
  -- the anchor of an absolute path does not matter
  have hstep : ∀ done s, walkSegment (anchorOf path) done s = walkSegment .root done s := by
    intro done s
    simp only [walkSegment, ha, reduceCtorEq, if_false]
  have hfold : ∀ segs done : List Text,
      segs.foldl (walkSegment (anchorOf path)) done = segs.foldl (walkSegment .root) done := by
    intro segs
    induction segs with
    | nil => exact fun _ => rfl
    | cons s segs ih => exact fun done => by rw [List.foldl_cons, List.foldl_cons, hstep, ih]
  rw [ofText_of_anchor ha]
  exact congrArg List.reverse (hfold _ _)

/-- **The names that a target leads to** as a text are the normal form of its segments behind the
directory that it starts from. -/
lemma targetNames_eq {directory : List Text} (hd : AreNames directory) (target : Text) :
    targetNames directory target =
      normalFrom (startOf directory target) (Path.segments target) := by
  unfold targetNames
  by_cases hhead : target.head? = some (.of '/')
  · rw [joinSegment, if_pos hhead, startOf, if_pos hhead, segments_ofText hhead]
  · have hproper := isProper_below hd
    rw [startOf, if_neg hhead, hproper.joinSegment_eq hhead]
    by_cases hnil : directory = []
    · subst hnil
      rw [if_pos (show (Location.below []).segments = [] from rfl), segments_ofText rfl]
      show normalFrom [] (Path.segments (.of '/' :: target)) = _
      rw [Path.segments, Text.splitOn_cons_sep, normalFrom_stay (.inl rfl)]
      rfl
    · have hslash : (Location.below directory).toText ++ .of '/' :: target =
          .of '/' :: (ofSegments directory ++ .of '/' :: target) := rfl
      rw [if_neg (show (Location.below directory).segments ≠ [] from hnil), hslash,
        segments_ofText rfl, Path.segments, Text.splitOn_cons_sep, normalFrom_stay (.inl rfl)]
      show normalFrom [] (Path.segments (ofSegments directory ++ .of '/' :: target)) = _
      rw [segments_append_slash, segments_ofSegments hnil hd, normalFrom_append,
        normalFrom_of_areNames hd]

/-! ### Without detours -/

/-- No target of a link has two dots behind a link: what stands in front of them is gone through
without one. -/
def IsDetourFree (t : MemoryTree) : Prop :=
  ∀ (directory : List Text) (name target : Text),
    lookup? (Location.below (directory ++ [name])) t.links = some target →
    ∀ before after, Path.segments target = before ++ [.of '.', .of '.'] :: after →
      ∃ mid, t.GoesTo 0 (startOf directory target) before mid

/-- Segments without two dots lead where their normal form does. -/
lemma goesTo_normalFrom_iff {segs : List Text} (hsegs : ∀ s ∈ segs, s ≠ [.of '.', .of '.'])
    (pending : List Text) : ∀ (links : Nat) (current last : List Text),
      t.GoesTo links current (segs ++ pending) last ↔
        t.GoesTo links current (normalFrom [] segs ++ pending) last := by
  induction segs with
  | nil => exact fun _ _ _ => Iff.rfl
  | cons s segs ih =>
    obtain ⟨hs, hrest⟩ := List.forall_mem_cons.1 hsegs
    intro links current last
    rcases isStep_cases s with hstay | hback | hstep
    · rw [List.cons_append, goesTo_stay_iff hstay, normalFrom_stay hstay]
      exact ih hrest links current last
    · exact absurd hback hs
    · rw [normalFrom_step hstep, normalFrom_eq_append hrest ([] ++ [s]), List.nil_append,
        List.append_assoc, List.cons_append, ← List.singleton_append]
      exact goesTo_append_congr (ih hrest) links current last

/-- **Segments lead where their normal form does**, if no two dots come behind a link.

**Proof sketch.** Induction on the segments. Two dots and names that are no link keep the directory
real, and they do the same to the normal form. Behind a link there are no two dots, so from there on
the normal form leaves the segments as they are, up to those that stay. -/
lemma goesTo_iff_normalFrom {segs : List Text} (pending : List Text) {links : Nat}
    {last : List Text} : ∀ {start : List Text}, t.IsReal start → (∀ s ∈ segs, .of '/' ∉ s) →
      (∀ before after, segs = before ++ [.of '.', .of '.'] :: after →
        ∃ mid, t.GoesTo 0 start before mid) →
      (t.GoesTo links start (segs ++ pending) last ↔
        t.GoesTo links [] (normalFrom start segs ++ pending) last) := by
  induction segs with
  | nil =>
    intro start hstart _ _
    rw [normalFrom_nil, hstart.goesTo_iff]
    rfl
  | cons s segs ih =>
    intro start hstart hslash hfree
    obtain ⟨hs, hrest⟩ := List.forall_mem_cons.1 hslash
    rcases isStep_cases s with hstay | rfl | hstep
    · rw [List.cons_append, goesTo_stay_iff hstay, normalFrom_stay hstay]
      refine ih hstart hrest fun before after heq => ?_
      obtain ⟨mid, hmid⟩ := hfree (s :: before) after (by rw [heq, List.cons_append])
      exact ⟨mid, (goesTo_stay_iff hstay).1 hmid⟩
    · rw [List.cons_append, goesTo_back_iff, normalFrom_back hstart.1]
      refine ih hstart.dropLast hrest fun before after heq => ?_
      obtain ⟨mid, hmid⟩ :=
        hfree ([.of '.', .of '.'] :: before) after (by rw [heq, List.cons_append])
      exact ⟨mid, goesTo_back_iff.1 hmid⟩
    · cases hlook : lookup? (Location.below (start ++ [s])) t.links with
      | none =>
        have hname : IsName s := ⟨hstep.ne_nil, hs, hstep.ne_dot, hstep.ne_dots⟩
        rw [List.cons_append, goesTo_enter_iff hstep hlook, normalFrom_step hstep]
        refine ih (hstart.concat hname hlook) hrest fun before after heq => ?_
        obtain ⟨mid, hmid⟩ := hfree (s :: before) after (by rw [heq, List.cons_append])
        exact ⟨mid, (goesTo_enter_iff hstep hlook).1 hmid⟩
      | some target =>
        have hdots : ∀ s' ∈ s :: segs, s' ≠ [.of '.', .of '.'] := by
          refine List.forall_mem_cons.2 ⟨hstep.ne_dots, ?_⟩
          rintro s' hs' rfl
          obtain ⟨before, after, rfl⟩ := List.append_of_mem hs'
          obtain ⟨mid, hmid⟩ := hfree (s :: before) after rfl
          obtain ⟨left, hleft, -⟩ := (goesTo_follow_iff hstep hlook).1 hmid
          omega
        rw [normalFrom_eq_append hdots, List.append_assoc, hstart.goesTo_iff]
        exact goesTo_normalFrom_iff hdots pending links start last

/-- **Without detours, resolution goes component by component**: names are resolved with as many
links as are followed.

**Proof sketch.** Induction on the links. Up to the first link the names are passed as they stand.
The target is gone through from the directory that holds the link, which is the same as going
through its normal form from the root. -/
theorem arrive?_eq_some_iff (h : t.IsDetourFree) :
    ∀ {links : Nat} {names real : List Text} {left : Nat}, AreNames names →
      (t.arrive? links names = some (real, left) ↔
        ∃ followed, followed + left = links ∧ t.GoesTo followed [] names real) := by
  -- names that are passed without a link lead to themselves
  have hpassed : ∀ {names reached real : List Text} {links left : Nat}, AreNames names →
      t.pass [] names = .arrived reached →
      (some (reached, links) = some (real, left) ↔
        ∃ followed, followed + left = links ∧ t.GoesTo followed [] names real) := by
    intro names reached real links left hn hpass
    have hgoes : ∀ followed, t.GoesTo followed [] names real ↔ followed = 0 ∧ reached = real := by
      intro followed
      have hnil : t.GoesTo followed reached [] real ↔ followed = 0 ∧ reached = real :=
        goesTo_nil_iff
      rw [← hnil, ← goesTo_append_iff_of_pass hn hpass, List.append_nil]
    simp only [hgoes, Option.some.injEq, Prod.mk.injEq]
    constructor
    · rintro ⟨rfl, rfl⟩
      exact ⟨0, Nat.zero_add _, rfl, rfl⟩
    · rintro ⟨followed, heq, rfl, rfl⟩
      exact ⟨rfl, by omega⟩
  intro links
  induction links with
  | zero =>
    intro names real left hn
    rw [arrive?]
    cases hpass : t.pass [] names with
    | arrived reached => exact hpassed hn hpass
    | atLink link directory target pending =>
      refine iff_of_false (by simp) ?_
      rintro ⟨followed, heq, hgoes⟩
      obtain ⟨rest, rfl, -⟩ := (goesTo_iff_of_pass hn hpass).1 hgoes
      omega
  | succ links ih =>
    intro names real left hn
    rw [arrive?]
    cases hpass : t.pass [] names with
    | arrived reached => exact hpassed hn hpass
    | atLink link directory target pending =>
      have hreal := isReal_of_pass hn hpass
      obtain ⟨hlink, -, name, -, -, rfl⟩ := pass_eq_atLink hn hpass
      have hstart : t.IsReal (startOf directory target) := by
        unfold startOf
        split
        · exact isReal_nil
        · exact hreal
      -- the target as a text leads where it leads component by component
      have htarget : ∀ followed,
          t.GoesTo followed [] (targetNames directory target ++ pending) real ↔
            t.GoesTo followed (startOf directory target)
              (Path.segments target ++ pending) real := by
        intro followed
        rw [targetNames_eq hreal.1]
        exact (goesTo_iff_normalFrom pending hstart (fun s hs => Text.not_mem_of_mem_splitOn hs)
          (h directory name target hlink)).symm
      dsimp only
      rw [ih (areNames_after_link hn hpass)]
      simp only [htarget, goesTo_iff_of_pass hn hpass]
      constructor
      · rintro ⟨followed, heq, hgoes⟩
        exact ⟨followed + 1, by omega, followed, rfl, hgoes⟩
      · rintro ⟨_, heq, followed, rfl, hgoes⟩
        exact ⟨followed, by omega, hgoes⟩

/-- **The real path of a path** that leads component by component somewhere, along not more links
than are followed. -/
theorem realPath_of_goesTo (h : t.IsDetourFree) {l : Location} (hl : l.IsProper) {followed : Nat}
    {last : List Text} (hle : followed ≤ maxLinks) (hgoes : t.GoesTo followed [] l.segments last) :
    t.fileSystem.realPath l.toText = (Location.below last).toText := by
  have harrive : t.arrive? maxLinks l.segments = some (last, maxLinks - followed) :=
    (arrive?_eq_some_iff h hl.names).2 ⟨followed, by omega, hgoes⟩
  show (Location.below (t.realNames l.toText)).toText = _
  rw [realNames_of_arrive? hl harrive]

/-- A link whose target goes back from behind another link. -/
def detourTree : MemoryTree :=
  .build "/project".toText [.link "b".toText "/other/dir".toText, .link "a".toText "b/../c".toText]

/-- **A detour is cut short**: component by component the link leads to what is beside the directory
that the other link leads to, and its real path is what is beside the other link. -/
theorem not_realPath_of_goesTo :
    detourTree.GoesTo 2 [] ["project".toText, "a".toText] ["other".toText, "c".toText] ∧
      detourTree.fileSystem.realPath "/project/a".toText = "/project/c".toText ∧
      ¬ detourTree.IsDetourFree := by
  have hstep : ∀ s ∈ ["project".toText, "a".toText, "b".toText, "c".toText, "other".toText,
      "dir".toText], IsStep s :=
    fun s hs => Path.IsName.isStep ((by decide : AreNames ["project".toText, "a".toText, "b".toText,
      "c".toText, "other".toText, "dir".toText]) s hs)
  have hbeside : detourTree.GoesTo 0 []
      [[], "other".toText, "dir".toText, "..".toText, "c".toText] ["other".toText, "c".toText] := by
    refine .stay (.inl rfl) (.enter (hstep _ (by simp)) (by decide +kernel) ?_)
    refine .enter (hstep _ (by simp)) (by decide +kernel) (.back ?_)
    exact .enter (hstep _ (by simp)) (by decide +kernel) .done
  have hlink : detourTree.GoesTo 1 ["project".toText] ["b".toText, "..".toText, "c".toText]
      ["other".toText, "c".toText] := by
    have hto : lookup? (Location.below (["project".toText] ++ ["b".toText])) detourTree.links =
        some "/other/dir".toText := by decide +kernel
    rw [goesTo_follow_iff (hstep _ (by simp)) hto]
    exact ⟨0, rfl, hbeside⟩
  have hgoes : detourTree.GoesTo 2 [] ["project".toText, "a".toText]
      ["other".toText, "c".toText] := by
    refine .enter (hstep _ (by simp)) (by decide +kernel) ?_
    have hto : lookup? (Location.below (["project".toText] ++ ["a".toText])) detourTree.links =
        some "b/../c".toText := by decide +kernel
    show detourTree.GoesTo 2 ["project".toText] ["a".toText] _
    rw [goesTo_follow_iff (hstep _ (by simp)) hto]
    exact ⟨1, rfl, hlink⟩
  have hreal : detourTree.fileSystem.realPath "/project/a".toText = "/project/c".toText := by
    decide +kernel
  refine ⟨hgoes, hreal, fun hfree => ?_⟩
  have hpath := realPath_of_goesTo hfree (l := .below ["project".toText, "a".toText])
    (isProper_below (by decide)) (by decide) hgoes
  exact absurd (hpath.symm.trans hreal) (by decide)

/-! ### Targets in normal form -/

/-- The location that the target of a link leads to as a text. -/
def normalTarget (link : Location) (target : Text) : Text :=
  (Location.below (targetNames link.segments.dropLast target)).toText

/-- The normal form of a target is the path of the names that the target leads to on paper. -/
lemma normalTarget_concat (directory : List Text) (name target : Text) :
    normalTarget (.below (directory ++ [name])) target =
      (Location.below (targetNames directory target)).toText := by
  have hdirectory : (Location.below (directory ++ [name])).segments.dropLast = directory :=
    List.dropLast_concat
  rw [normalTarget, hdirectory]

/-- The tree in which every target is in normal form. -/
def straightened (t : MemoryTree) : MemoryTree :=
  { t with links := t.links.map fun p => (p.1, normalTarget p.1 p.2) }

/-- The value of a key among values that were changed with their keys. -/
lemma lookup?_map_keyed {α β γ : Type} [DecidableEq α] (f : α → β → γ) (k : α)
    (pairs : List (α × β)) :
    lookup? k (pairs.map fun p => (p.1, f p.1 p.2)) = (lookup? k pairs).map (f k) := by
  induction pairs with
  | nil => rfl
  | cons p pairs ih =>
    obtain ⟨l, b⟩ := p
    by_cases h : l = k
    · subst h
      simp [lookup?]
    · simpa [lookup?, h] using ih

/-- A straightened link has its target in normal form. -/
lemma lookup?_straightened (l : Location) :
    lookup? l t.straightened.links = (lookup? l t.links).map (normalTarget l) :=
  lookup?_map_keyed normalTarget l t.links

/-- The same links are met. -/
lemma pass_straightened {names : List Text} (hn : AreNames names) : ∀ current : List Text,
    t.straightened.pass current names =
      match t.pass current names with
      | .arrived reached => .arrived reached
      | .atLink link directory target pending =>
        .atLink link directory (Location.below (targetNames directory target)).toText pending := by
  induction names with
  | nil => exact fun _ => rfl
  | cons name names ih =>
    intro current
    have hname : IsName name := hn name List.mem_cons_self
    rw [pass, pass, if_neg hname.ne_dots, lookup?_straightened]
    cases hlook : lookup? (Location.below (current ++ [name])) t.links with
    | none => exact ih (fun s hs => hn s (List.mem_cons_of_mem _ hs)) _
    | some target => simp [normalTarget_concat]

/-- **Targets in normal form are resolved alike.** -/
lemma arrive?_straightened : ∀ {links : Nat} {names : List Text}, AreNames names →
    t.straightened.arrive? links names = t.arrive? links names := by
  intro links
  induction links with
  | zero =>
    intro names hn
    rw [arrive?, arrive?, pass_straightened hn]
    cases t.pass [] names <;> rfl
  | succ links ih =>
    intro names hn
    rw [arrive?, arrive?, pass_straightened hn]
    cases hpass : t.pass [] names with
    | arrived reached => rfl
    | atLink link directory target pending =>
      have hafter := areNames_after_link hn hpass
      have hproper := isProper_below hafter.left
      have htarget : targetNames directory (Location.below (targetNames directory target)).toText =
          targetNames directory target := by
        rw [targetNames, joinSegment, if_pos hproper.head?_toText, hproper.ofText_toText]
        rfl
      dsimp only
      rw [htarget]
      exact ih hafter

/-- Targets in normal form have no two dots. -/
lemma isDetourFree_straightened (h : t.Rooted) : t.straightened.IsDetourFree := by
  intro directory name text htext before after hsegs
  rw [lookup?_straightened] at htext
  obtain ⟨target, hlink, rfl⟩ := Option.map_eq_some_iff.1 htext
  have hmem : Location.below (directory ++ [name]) ∈ t.locations :=
    mem_locations.2 (.inr (.inr (.inl ((lookup?_isSome _ _).1 (by rw [hlink]; rfl)))))
  have hd : AreNames directory := (h.proper _ hmem).names.left
  have hnames : AreNames (targetNames directory target) := targetNames_areNames hd target
  rw [normalTarget_concat] at hsegs
  have hcut : Path.segments (Location.below (targetNames directory target)).toText =
      [] :: Path.segments (ofSegments (targetNames directory target)) := Text.splitOn_cons_sep _
  have hdots : ([.of '.', .of '.'] : Text) ∈
      Path.segments (ofSegments (targetNames directory target)) := by
    rw [hcut] at hsegs
    rcases List.cons_eq_append_iff.1 hsegs with ⟨-, hcons⟩ | ⟨rest, -, hrest⟩
    · cases hcons
    · rw [hrest]
      exact List.mem_append_right _ List.mem_cons_self
  by_cases hnil : targetNames directory target = []
  · rw [hnil] at hdots
    exact absurd hdots (by decide)
  · rw [segments_ofSegments hnil hnames] at hdots
    exact absurd rfl (hnames _ hdots).ne_dots

/-- **In every tree, resolution goes component by component through targets in normal form.** -/
theorem arrive?_iff_straightened (h : t.Rooted) {links : Nat} {names real : List Text} {left : Nat}
    (hn : AreNames names) :
    t.arrive? links names = some (real, left) ↔
      ∃ followed, followed + left = links ∧ t.straightened.GoesTo followed [] names real := by
  rw [← arrive?_straightened hn]
  exact arrive?_eq_some_iff (isDetourFree_straightened h) hn

end GlobPreset.MemoryTree
