import GlobPreset.Proofs.FileSystem.Disk

/-!
# Ways to directories

Following a path meets links, and the target of a link is followed before the rest of the path is. A
way that ends at a directory is told here step by step, with the number of its links. Such a way can
be cut wherever the path can, and it is gone whatever the path is followed for; so a request about a
path is a request about a name in the directory that the way to it leads to.

## Main definitions

* `Disk.IsStep` — a segment that asks for an entry.
* `Disk.Way` — a way through segments to a directory, with the number of links that it follows.

## Main results

* `Disk.Way.append`, `Disk.Way.split` — ways are put together, and cut, where their segments are.
* `Disk.Way.unique` — there is only one way through given segments.
* `Disk.Way.passWithin_append` — **following goes on from where a way ends**, with the links that
  are left.
* `Disk.exists_way_or_failed` — what is followed without failing goes a way.
* `Disk.exists_way_of_find`, `Disk.find_of_way` — a directory that is found has a way to it, and it
  is found if it has one.
-/

set_option autoImplicit false

namespace GlobPreset

/-- A segment that asks for an entry of that name. -/
structure Disk.IsStep (s : Text) : Prop where
  /-- It is not empty. -/
  ne_nil : s ≠ []
  /-- It is no dot. -/
  ne_dot : s ≠ [.of '.']
  /-- It is not two dots. -/
  ne_dots : s ≠ [.of '.', .of '.']

/-- A name is a step. -/
lemma Path.IsName.isStep {s : Text} (h : Path.IsName s) : Disk.IsStep s :=
  ⟨h.ne_nil, h.ne_dot, h.ne_dots⟩

namespace Disk

open GlobPreset.Path Location

variable {d d' : Disk}

/-- A segment stays where it is, goes one directory back, or asks for an entry. -/
lemma isStep_cases (s : Text) : (s = [] ∨ s = [.of '.']) ∨ s = [.of '.', .of '.'] ∨ IsStep s := by
  by_cases hstay : s = [] ∨ s = [.of '.']
  · exact .inl hstay
  by_cases hback : s = [.of '.', .of '.']
  · exact .inr (.inl hback)
  · exact .inr (.inr ⟨fun h => hstay (.inl h), fun h => hstay (.inr h), hback⟩)

/-! ### Following a path by one segment -/

section Following

variable {aim : Aim} {links : Nat} {current segs : List Text} {s : Text}

/-- A segment that does not count is passed. -/
lemma passWithin_stay (h : s = [] ∨ s = [.of '.']) :
    d.passWithin aim links current (s :: segs) = d.passWithin aim links current segs := by
  cases links <;> simp only [passWithin, pass, if_pos h]

/-- Two dots go back to the directory above. -/
lemma passWithin_back :
    d.passWithin aim links current ([.of '.', .of '.'] :: segs) =
      d.passWithin aim links current.dropLast segs := by
  have hstay : ¬ (([.of '.', .of '.'] : Text) = [] ∨ ([.of '.', .of '.'] : Text) = [.of '.'])  := by
    decide
  cases links <;> simp only [passWithin, pass, if_neg hstay, if_true]

/-- A step with more behind it. -/
lemma pass_cons (hs : IsStep s) (hne : segs ≠ [])
    (hcontent : aim = .content → segs.all List.isEmpty = false) :
    d.pass aim current (s :: segs) =
      if d.refusesName s then .failed .nameTooLong
      else
        match d.at? (current ++ [s]) with
        | none => .failed .noEntry
        | some .directory => d.pass aim (current ++ [s]) segs
        | some (.link target) => .atLink current target segs
        | some _ => .failed .notDirectory := by
  have hstay : ¬ (s = [] ∨ s = [.of '.']) := fun h => h.elim hs.ne_nil hs.ne_dot
  have hslash : ¬ (aim = .content ∧ segs ≠ [] ∧ segs.all List.isEmpty = true) := by
    rintro ⟨haim, -, hall⟩
    rw [hcontent haim] at hall
    cases hall
  rw [pass, if_neg hstay, if_neg hs.ne_dots, if_neg hslash, List.isEmpty_eq_false_iff.2 hne]
  dsimp only
  cases d.at? (current ++ [s]) with
  | none => rfl
  | some node => cases node <;> rfl

/-- **A step with more behind it** goes on in a directory, or where a link leads to. -/
lemma passWithin_cons (hs : IsStep s) (hne : segs ≠ [])
    (hcontent : aim = .content → segs.all List.isEmpty = false) :
    d.passWithin aim links current (s :: segs) =
      if d.refusesName s then .failed .nameTooLong
      else
        match d.at? (current ++ [s]) with
        | none => .failed .noEntry
        | some .directory => d.passWithin aim links (current ++ [s]) segs
        | some (.link target) =>
          match links with
          | 0 => .failed .tooManyLinks
          | links + 1 =>
            d.passWithin aim links (startOf current target) (Path.segments target ++ segs)
        | some _ => .failed .notDirectory := by
  have hpass : d.pass aim current (s :: segs) = _ := pass_cons hs hne hcontent
  by_cases hlong : d.refusesName s = true
  · rw [if_pos hlong] at hpass ⊢
    cases links <;> simp only [passWithin, hpass]
  rw [if_neg hlong] at hpass ⊢
  cases hat : d.at? (current ++ [s]) with
  | none => cases links <;> simp only [passWithin, hpass, hat]
  | some node => cases node <;> cases links <;> simp only [passWithin, hpass, hat]

/-- **The last step** ends at an entry, where it leads to as a link, or where an entry could be. -/
lemma passWithin_last (hs : IsStep s) :
    d.passWithin aim links current [s] =
      if d.refusesName s then .failed .nameTooLong
      else
        match d.at? (current ++ [s]) with
        | none => .vacant (current ++ [s])
        | some (.link target) =>
          if aim = .name then .found (current ++ [s])
          else
            match links with
            | 0 => .failed .tooManyLinks
            | links + 1 => d.passWithin aim links (startOf current target) (Path.segments target)
        | some _ => .found (current ++ [s]) := by
  have hstay : ¬ (s = [] ∨ s = [.of '.']) := fun h => h.elim hs.ne_nil hs.ne_dot
  by_cases hlong : d.refusesName s = true
  · cases links <;> simp [passWithin, pass, hstay, hs.ne_dots, hlong]
  cases hat : d.at? (current ++ [s]) with
  | none => cases links <;> simp [passWithin, pass, hstay, hs.ne_dots, hlong, hat]
  | some node =>
    cases node with
    | link target =>
      by_cases haim : aim = .name <;> cases links <;>
        simp [passWithin, pass, hstay, hs.ne_dots, hlong, hat, haim]
    | directory => cases links <;> simp [passWithin, pass, hstay, hs.ne_dots, hlong, hat]
    | file content => cases links <;> simp [passWithin, pass, hstay, hs.ne_dots, hlong, hat]
    | special => cases links <;> simp [passWithin, pass, hstay, hs.ne_dots, hlong, hat]

end Following

/-! ### Ways -/

/-- A way from a directory through segments to a directory, with the number of links that it
follows. -/
inductive Way (d : Disk) : (links : Nat) → (current segs last : List Text) → Prop where
  /-- Without segments there is nowhere to go. -/
  | done {current : List Text} : Way d 0 current [] current
  /-- An empty segment and a dot stay. -/
  | stay {links : Nat} {current segs last : List Text} {s : Text} (hs : s = [] ∨ s = [.of '.'])
      (more : Way d links current segs last) : Way d links current (s :: segs) last
  /-- Two dots go one directory back. -/
  | back {links : Nat} {current segs last : List Text}
      (more : Way d links current.dropLast segs last) :
      Way d links current ([.of '.', .of '.'] :: segs) last
  /-- A directory is entered. -/
  | enter {links : Nat} {current segs last : List Text} {s : Text} (hs : IsStep s)
      (hfits : d.refusesName s = false) (hat : d.at? (current ++ [s]) = some .directory)
      (more : Way d links (current ++ [s]) segs last) : Way d links current (s :: segs) last
  /-- A link is followed. -/
  | follow {links : Nat} {current segs last : List Text} {s target : Text} (hs : IsStep s)
      (hfits : d.refusesName s = false) (hat : d.at? (current ++ [s]) = some (.link target))
      (more : Way d links (startOf current target) (Path.segments target ++ segs) last) :
      Way d (links + 1) current (s :: segs) last

/-- Where a path starts from is a directory. -/
lemma at?_startOf {current : List Text} (h : d.at? current = some .directory) (target : Text) :
    d.at? (startOf current target) = some .directory := by
  unfold startOf
  split
  · rfl
  · exact h

namespace Way

variable {links more : Nat} {current segs rest mid last : List Text}

/-- A way leads to a directory. -/
lemma at?_last (hway : Way d links current segs last) (h : d.WellFormed)
    (hcurrent : d.at? current = some .directory) : d.at? last = some .directory := by
  induction hway with
  | done => exact hcurrent
  | stay _ _ ih => exact ih hcurrent
  | back _ ih => exact ih (h.at?_dropLast hcurrent)
  | enter _ _ hat _ ih => exact ih hat
  | follow _ _ _ _ ih => exact ih (at?_startOf hcurrent _)

/-- **Ways are put together.** -/
lemma append (hway : Way d links current segs mid) (hmore : Way d more mid rest last) :
    Way d (links + more) current (segs ++ rest) last := by
  induction hway with
  | done => rwa [Nat.zero_add]
  | stay hs _ ih => exact .stay hs (ih hmore)
  | back _ ih => exact .back (ih hmore)
  | enter hs hfits hat _ ih => exact .enter hs hfits hat (ih hmore)
  | follow hs hfits hat _ ih =>
    have hrest := ih hmore
    rw [List.append_assoc] at hrest
    rw [Nat.add_right_comm]
    exact .follow hs hfits hat hrest

/-- **Ways are cut** where their segments are. -/
lemma split (hway : Way d links current (segs ++ rest) last) :
    ∃ first second mid, Way d first current segs mid ∧ Way d second mid rest last ∧
      links = first + second := by
  generalize hall : segs ++ rest = all at hway
  induction hway generalizing segs with
  | done =>
    obtain ⟨rfl, rfl⟩ := List.append_eq_nil_iff.1 hall
    exact ⟨0, 0, _, .done, .done, rfl⟩
  | stay hs hmore ih =>
    rcases List.append_eq_cons_iff.1 hall with ⟨rfl, rfl⟩ | ⟨segs, rfl, hrest⟩
    · exact ⟨0, _, _, .done, .stay hs hmore, (Nat.zero_add _).symm⟩
    · obtain ⟨first, second, mid, hfirst, hsecond, heq⟩ := ih hrest.symm
      exact ⟨first, second, mid, .stay hs hfirst, hsecond, heq⟩
  | back hmore ih =>
    rcases List.append_eq_cons_iff.1 hall with ⟨rfl, rfl⟩ | ⟨segs, rfl, hrest⟩
    · exact ⟨0, _, _, .done, .back hmore, (Nat.zero_add _).symm⟩
    · obtain ⟨first, second, mid, hfirst, hsecond, heq⟩ := ih hrest.symm
      exact ⟨first, second, mid, .back hfirst, hsecond, heq⟩
  | enter hs hfits hat hmore ih =>
    rcases List.append_eq_cons_iff.1 hall with ⟨rfl, rfl⟩ | ⟨segs, rfl, hrest⟩
    · exact ⟨0, _, _, .done, .enter hs hfits hat hmore, (Nat.zero_add _).symm⟩
    · obtain ⟨first, second, mid, hfirst, hsecond, heq⟩ := ih hrest.symm
      exact ⟨first, second, mid, .enter hs hfits hat hfirst, hsecond, heq⟩
  | follow hs hfits hat hmore ih =>
    rcases List.append_eq_cons_iff.1 hall with ⟨rfl, rfl⟩ | ⟨segs, rfl, hrest⟩
    · exact ⟨0, _, _, .done, .follow hs hfits hat hmore, (Nat.zero_add _).symm⟩
    · obtain ⟨first, second, mid, hfirst, hsecond, heq⟩ := ih (by rw [hrest, List.append_assoc])
      exact ⟨first + 1, second, mid, .follow hs hfits hat hfirst, hsecond, by omega⟩

/-- **There is only one way** through given segments. -/
lemma unique {links' : Nat} {last' : List Text} (hway : Way d links current segs last)
    (hway' : Way d links' current segs last') : links = links' ∧ last = last' := by
  induction hway generalizing links' with
  | done =>
    cases hway'
    exact ⟨rfl, rfl⟩
  | stay hs _ ih =>
    cases hway' with
    | stay _ hmore' => exact ih hmore'
    | back _ => exact absurd hs (by decide)
    | enter hs' _ _ _ => exact absurd hs (not_or.2 ⟨hs'.ne_nil, hs'.ne_dot⟩)
    | follow hs' _ _ _ => exact absurd hs (not_or.2 ⟨hs'.ne_nil, hs'.ne_dot⟩)
  | back _ ih =>
    cases hway' with
    | stay hs' _ => exact absurd hs' (by decide)
    | back hmore' => exact ih hmore'
    | enter hs' _ _ _ => exact absurd rfl hs'.ne_dots
    | follow hs' _ _ _ => exact absurd rfl hs'.ne_dots
  | enter hs _ hat _ ih =>
    cases hway' with
    | stay hs' _ => exact absurd hs' (not_or.2 ⟨hs.ne_nil, hs.ne_dot⟩)
    | back _ => exact absurd rfl hs.ne_dots
    | enter _ _ _ hmore' => exact ih hmore'
    | follow _ _ hat' _ =>
      rw [hat] at hat'
      cases hat'
  | follow hs _ hat _ ih =>
    cases hway' with
    | stay hs' _ => exact absurd hs' (not_or.2 ⟨hs.ne_nil, hs.ne_dot⟩)
    | back _ => exact absurd rfl hs.ne_dots
    | enter _ _ hat' _ =>
      rw [hat] at hat'
      cases hat'
    | follow _ _ hat' hmore' =>
      rw [hat] at hat'
      cases hat'
      obtain ⟨rfl, hlast⟩ := ih hmore'
      exact ⟨rfl, hlast⟩

/-- Entries that are added, or that are no directories and no links, leave a way as it is. -/
lemma mono (hway : Way d links current segs last) (hlimits : d'.limits = d.limits)
    (hat : ∀ n node, d.at? n = some node → (∀ content, node ≠ .file content) →
      d'.at? n = some node) :
    Way d' links current segs last := by
  have hname : ∀ s, d'.refusesName s = d.refusesName s := fun s => by
    rw [refusesName, refusesName, hlimits]
  induction hway with
  | done => exact .done
  | stay hs _ ih => exact .stay hs ih
  | back _ ih => exact .back ih
  | enter hs hfits hentry _ ih =>
    exact .enter hs ((hname _).trans hfits) (hat _ _ hentry (by simp)) ih
  | follow hs hfits hentry _ ih =>
    exact .follow hs ((hname _).trans hfits) (hat _ _ hentry (by simp)) ih

/-- The way through a single segment, and through those behind it. -/
lemma cons_iff {s : Text} :
    Way d links current (s :: segs) last ↔
      ∃ first second mid, Way d first current [s] mid ∧ Way d second mid segs last ∧
        links = first + second := by
  constructor
  · intro hway
    rw [← List.singleton_append] at hway
    exact hway.split
  · rintro ⟨first, second, mid, hfirst, hsecond, rfl⟩
    exact hfirst.append hsecond

/-- An empty segment in front stays. -/
lemma nil_cons_iff : Way d links current ([] :: segs) last ↔ Way d links current segs last := by
  constructor
  · intro hway
    cases hway with
    | stay _ hmore => exact hmore
    | enter hs _ _ _ => exact absurd rfl hs.ne_nil
    | follow hs _ _ _ => exact absurd rfl hs.ne_nil
  · exact .stay (.inl rfl)

/-- Empty segments in front stay. -/
lemma append_iff {empties : List Text} (hempties : ∀ s ∈ empties, s = []) :
    Way d links current (empties ++ segs) last ↔ Way d links current segs last := by
  induction empties with
  | nil => rfl
  | cons s empties ih =>
    obtain ⟨rfl, hrest⟩ := List.forall_mem_cons.1 hempties
    rw [List.cons_append, nil_cons_iff, ih hrest]

/-- **Segments that stay do not count.** -/
lemma filter_iff {counts : Text → Bool}
    (hcounts : ∀ s, counts s = false → s = [] ∨ s = [.of '.']) :
    Way d links current (segs.filter counts) last ↔ Way d links current segs last := by
  induction segs generalizing links current with
  | nil => rfl
  | cons s segs ih =>
    by_cases hs : counts s = true
    · rw [List.filter_cons_of_pos hs, cons_iff, cons_iff]
      simp only [ih]
    · have hstay := hcounts s (by simpa using hs)
      rw [List.filter_cons_of_neg hs, ih]
      constructor
      · exact .stay hstay
      · intro hway
        cases hway with
        | stay _ hmore => exact hmore
        | back _ => exact absurd hstay (by decide)
        | enter hs _ _ _ => exact absurd hstay (not_or.2 ⟨hs.ne_nil, hs.ne_dot⟩)
        | follow hs _ _ _ => exact absurd hstay (not_or.2 ⟨hs.ne_nil, hs.ne_dot⟩)

end Way

/-- The names of directories that lie in one another are a way without links. -/
lemma way_of_at? (h : d.WellFormed) {names : List Text} (hn : AreNames names)
    (hfits : ∀ s ∈ names, d.refusesName s = false) (hat : d.at? names = some .directory) :
    Way d 0 [] names names := by
  induction names using List.reverseRecOn with
  | nil => exact .done
  | append_singleton front last ih =>
    have hfront : d.at? front = some .directory := by
      have hdirectory := h.at?_dropLast hat
      rwa [List.dropLast_concat] at hdirectory
    have hway := ih hn.left (fun s hs => hfits s (List.mem_append_left _ hs)) hfront
    have hlast : last ∈ front ++ [last] := by simp
    exact hway.append (.enter (hn last hlast).isStep (hfits last hlast) hat .done)

/-! ### Following a way -/

section Following

variable {aim : Aim} {links : Nat} {current segs rest last : List Text}

/-- **Following goes on from where a way ends**, with the links that are left. -/
lemma Way.passWithin_append (hway : Way d links current segs last) {budget : Nat}
    (hlinks : links ≤ budget) (hrest : rest.all List.isEmpty = false) :
    d.passWithin aim budget current (segs ++ rest) =
      d.passWithin aim (budget - links) last rest := by
  have hne : ∀ {segs : List Text}, segs ++ rest ≠ [] := by
    rintro segs hnil
    rw [(List.append_eq_nil_iff.1 hnil).2] at hrest
    cases hrest
  have hall : ∀ {segs : List Text}, (segs ++ rest).all List.isEmpty = false := by
    intro segs
    rw [List.all_append, hrest, Bool.and_false]
  induction hway generalizing budget with
  | done => rfl
  | stay hs _ ih => rw [List.cons_append, passWithin_stay hs, ih hlinks]
  | back _ ih => rw [List.cons_append, passWithin_back, ih hlinks]
  | enter hs hfits hat _ ih =>
    rw [List.cons_append, passWithin_cons hs hne fun _ => hall, hfits, if_neg Bool.false_ne_true,
      hat]
    exact ih hlinks
  | follow hs hfits hat _ ih =>
    obtain ⟨budget, rfl⟩ := Nat.exists_eq_add_of_le' hlinks
    rw [List.cons_append, passWithin_cons hs hne fun _ => hall, hfits, if_neg Bool.false_ne_true,
      hat, ← Nat.add_assoc]
    dsimp only
    rw [← List.append_assoc, ih (Nat.le_add_left _ _)]
    congr 1
    omega

/-- **What is followed without failing goes a way** as far as the last segments.

**Proof sketch.** Induction on the links that may be followed, and for each number of them on the
segments; only a link that is met needs a smaller number. -/
lemma exists_way_or_failed (hrest : rest.all List.isEmpty = false) (budget : Nat) :
    ∀ current segs : List Text, (∃ links last, links ≤ budget ∧ Way d links current segs last) ∨
      ∃ e, d.passWithin aim budget current (segs ++ rest) = .failed e := by
  have hne : ∀ {segs : List Text}, segs ++ rest ≠ [] := by
    rintro segs hnil
    rw [(List.append_eq_nil_iff.1 hnil).2] at hrest
    cases hrest
  have hall : ∀ {segs : List Text}, (segs ++ rest).all List.isEmpty = false := by
    intro segs
    rw [List.all_append, hrest, Bool.and_false]
  induction budget using Nat.strong_induction_on with
  | _ budget ihbudget =>
  intro current segs
  induction segs generalizing current with
  | nil => exact .inl ⟨0, current, Nat.zero_le _, .done⟩
  | cons s segs ih =>
    rw [List.cons_append]
    rcases isStep_cases s with hs | rfl | hs
    · rw [passWithin_stay hs]
      exact (ih current).imp_left fun ⟨links, last, hlinks, hway⟩ =>
        ⟨links, last, hlinks, .stay hs hway⟩
    · rw [passWithin_back]
      exact (ih current.dropLast).imp_left fun ⟨links, last, hlinks, hway⟩ =>
        ⟨links, last, hlinks, .back hway⟩
    rw [passWithin_cons hs hne fun _ => hall]
    by_cases hlong : d.refusesName s = true
    · exact .inr ⟨_, if_pos hlong⟩
    have hfits : d.refusesName s = false := by simpa using hlong
    rw [if_neg hlong]
    cases hat : d.at? (current ++ [s]) with
    | none => exact .inr ⟨_, rfl⟩
    | some node =>
      cases node with
      | directory =>
        exact (ih (current ++ [s])).imp_left fun ⟨links, last, hlinks, hway⟩ =>
          ⟨links, last, hlinks, .enter hs hfits hat hway⟩
      | link target =>
        cases budget with
        | zero => exact .inr ⟨_, rfl⟩
        | succ budget =>
          dsimp only
          rw [← List.append_assoc]
          exact (ihbudget budget (Nat.lt_succ_self _) _ _).imp_left
            fun ⟨links, last, hlinks, hway⟩ =>
              ⟨links + 1, last, Nat.succ_le_succ hlinks, .follow hs hfits hat hway⟩
      | file content => exact .inr ⟨_, rfl⟩
      | special => exact .inr ⟨_, rfl⟩

/-- Without segments, a way ends where it starts. -/
lemma passWithin_nil (aim : Aim) (budget : Nat) (current : List Text) :
    d.passWithin aim budget current [] = .found current := by
  cases budget <;> rfl

/-- Following a way ends where the way does. -/
lemma Way.passWithin_eq (hway : Way d links current segs last) {budget : Nat}
    (hlinks : links ≤ budget) : d.passWithin .target budget current segs = .found last := by
  have haim : Aim.target ≠ .content := by decide
  induction hway generalizing budget with
  | done => exact passWithin_nil _ _ _
  | stay hs _ ih => rw [passWithin_stay hs, ih hlinks]
  | back _ ih => rw [passWithin_back, ih hlinks]
  | @enter links current segs last s hs hfits hat hmore ih =>
    by_cases hne : segs = []
    · subst hne
      cases hmore
      rw [passWithin_last hs, hfits, if_neg Bool.false_ne_true, hat]
    · rw [passWithin_cons hs hne fun h => absurd h haim, hfits, if_neg Bool.false_ne_true, hat]
      exact ih hlinks
  | @follow links current segs last s target hs hfits hat _ ih =>
    obtain ⟨budget, rfl⟩ := Nat.exists_eq_add_of_le' hlinks
    have hrest := ih (Nat.le_add_left links budget)
    by_cases hne : segs = []
    · subst hne
      rw [List.append_nil] at hrest
      rw [passWithin_last hs, hfits, if_neg Bool.false_ne_true, hat]
      exact hrest
    · rw [passWithin_cons hs hne fun h => absurd h haim, hfits, if_neg Bool.false_ne_true, hat]
      exact hrest

/-- **The end of a way is found**, if the system takes the path. -/
lemma find_of_way (h : d.WellFormed) {path : Text} (hne : path ≠ [])
    (hfits : d.refusesPath path = false) (hway : Way d links [] (Path.segments path) last)
    (hlinks : links ≤ maxLinks) : d.find path = .ok (last, .directory) := by
  refine find_eq_ok.2 ⟨?_, hway.at?_last h at?_nil⟩
  rw [locate, List.isEmpty_eq_false_iff.2 hne, if_neg Bool.false_ne_true, hfits,
    if_neg Bool.false_ne_true, hway.passWithin_eq hlinks]

/-- **A directory that is reached has a way to it.** -/
lemma exists_way_of_passWithin (h : d.WellFormed) {budget : Nat}
    (hcurrent : d.at? current = some .directory)
    (hfound : d.passWithin .target budget current segs = .found last)
    (hlast : d.at? last = some .directory) : ∃ links ≤ budget, Way d links current segs last := by
  -- a dot behind the segments stays in the directory
  have hdot : [([.of '.'] : Text)].all List.isEmpty = false := rfl
  have hstay : ∀ (budget : Nat) (last : List Text),
      d.passWithin .target budget last [[.of '.']] = .found last := fun budget last => by
    rw [passWithin_stay (.inr rfl), passWithin_nil]
  obtain ⟨left, hleft⟩ :=
    passWithin_append_of_found h (List.cons_ne_nil [.of '.'] []) hlast hcurrent hfound
  rw [hstay] at hleft
  rcases exists_way_or_failed hdot budget current segs with ⟨links, last', hlinks, hway⟩ | ⟨e, he⟩
  · rw [hway.passWithin_append hlinks hdot, hstay] at hleft
    exact ⟨links, hlinks, Passage.found.inj hleft ▸ hway⟩
  · rw [hleft] at he
    cases he

/-- **A directory that is found has a way to it.** -/
theorem exists_way_of_find (h : d.WellFormed) {path : Text}
    (hfind : d.find path = .ok (last, .directory)) :
    ∃ links ≤ maxLinks, Way d links [] (Path.segments path) last := by
  obtain ⟨hlocate, hat⟩ := find_eq_ok.1 hfind
  unfold locate at hlocate
  split at hlocate
  · cases hlocate
  split at hlocate
  · cases hlocate
  exact exists_way_of_passWithin h at?_nil hlocate hat

end Following

end Disk

end GlobPreset
