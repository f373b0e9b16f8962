import GlobPreset.Proofs.FileSystem.Opening

/-!
# Requests where nothing is in the way

A system may refuse names that are too long. On a disk without such limits, whether a request about
a file succeeds depends on the entries alone: what is looked for behind a way is found if it is
there, and directories can be made unless something else than a directory is in the way.

## Main definitions

* `Disk.IsClear` — nothing but directories is in the way of some names.

## Main results

* `Disk.WellFormed.erase` — removing an entry keeps a disk well-formed.
* `Disk.find_end`, `Disk.write_end`, `Disk.unlink_end` — what requests about a file behind a way
  find and leave.
* `Disk.locate_missing` — nothing is found behind a directory that is missing.
* `Disk.makeLineage_of_isClear` — **directories can be made where nothing is in the way**.
-/

set_option autoImplicit false

namespace GlobPreset.Disk

open GlobPreset.Path Location

variable {d : Disk}

/-! ### Removing an entry -/

/-- The entry that is removed is gone. -/
lemma at?_erase {names : List Text} (hne : names ≠ []) : (d.erase names).at? names = none := by
  rw [at?, List.isEmpty_eq_false_iff.2 hne, if_neg Bool.false_ne_true, erase, lookup?_filter_self]

/-- Removing an entry leaves all others. -/
lemma at?_erase_of_ne {names n : List Text} (hne : n ≠ names) :
    (d.erase names).at? n = d.at? n := by
  rw [at?, at?, erase, lookup?_filter_of_ne hne]

/-- **Removing an entry** that is no directory keeps a disk well-formed. -/
lemma WellFormed.erase (h : d.WellFormed) {names : List Text}
    (hat : d.at? names ≠ some .directory) : (d.erase names).WellFormed := by
  have hkeys : (d.erase names).nodes.map Prod.fst =
      (d.nodes.map Prod.fst).filter (fun n => decide (n ≠ names)) := by
    rw [Disk.erase, List.filter_map]
    rfl
  refine ⟨?_, ?_, ?_⟩
  · rw [hkeys]
    exact fun n hmem => h.areNames n (List.mem_of_mem_filter hmem)
  · rw [hkeys]
    exact h.distinct.filter _
  · rw [hkeys]
    intro n hmem
    have hdirectory := h.parent n (List.mem_of_mem_filter hmem)
    rwa [at?_erase_of_ne]
    rintro heq
    exact hat (heq ▸ hdirectory)

/-! ### Requests without limits -/

section Unlimited

variable (hlimits : d.limits = none)
include hlimits

/-- Without limits, no name is too long. -/
lemma refusesName_of_limits (name : Text) : d.refusesName name = false := by
  rw [refusesName, hlimits]
  rfl

/-- Without limits, no path is too long. -/
lemma refusesPath_of_limits (path : Text) : d.refusesPath path = false := by
  rw [refusesPath, hlimits]
  rfl

/-- Without limits, nothing is too long, neither a path nor a name in it. -/
lemma isTooLong_of_limits (names : List Text) : d.isTooLong names = false := by
  rw [isTooLong, refusesPath_of_limits hlimits, Bool.false_or, List.any_eq_false]
  intro s _
  rw [refusesName_of_limits hlimits]
  exact Bool.false_ne_true

section Requests

variable {path : Text} {front n : List Text} {s : Text} {links : Nat}
  (hpath : Path.segments path = front ++ [s]) (hs : IsStep s)
  (hway : Way d links [] front n) (hlinks : links ≤ maxLinks)
include hpath hs hway hlinks

/-- Without limits, a path that goes on from a way leads to the entry of its last segment. -/
lemma locate_end (hlink : ∀ target, d.at? (n ++ [s]) ≠ some (.link target)) (aim : Aim) :
    d.locate aim path =
      match d.at? (n ++ [s]) with
      | none => .vacant (n ++ [s])
      | some _ => .found (n ++ [s]) := by
  rw [locate_of_way hpath hs hway hlinks (refusesPath_of_limits hlimits path), passWithin_last hs,
    refusesName_of_limits hlimits, if_neg Bool.false_ne_true]
  cases hat : d.at? (n ++ [s]) with
  | none => rfl
  | some node =>
    cases node with
    | link target => exact absurd hat (hlink target)
    | file content => rfl
    | directory => rfl
    | special => rfl

/-- An entry that is no link is found. -/
lemma find_end {node : DiskNode} (hat : d.at? (n ++ [s]) = some node)
    (hnode : ∀ target, node ≠ .link target) : d.find path = .ok (n ++ [s], node) := by
  have hlink : ∀ target, d.at? (n ++ [s]) ≠ some (.link target) := by
    intro target htarget
    exact hnode target (Option.some.inj (hat.symm.trans htarget))
  refine find_eq_ok.2 ⟨?_, hat⟩
  rw [locate_end hlimits hpath hs hway hlinks hlink, hat]

/-- A file is written where nothing is, or in place of a file. -/
lemma write_end (hrefused : isRefused path = false) {content : Text}
    (hat : d.at? (n ++ [s]) = none ∨ ∃ c, d.at? (n ++ [s]) = some (.file c)) :
    d.write path content = .ok (d.put (n ++ [s]) (.file content)) := by
  rcases hat with hat | ⟨c, hat⟩
  · rw [write, hrefused, if_neg Bool.false_ne_true,
      locate_end hlimits hpath hs hway hlinks (by simp [hat]), hat]
  · rw [write, hrefused, if_neg Bool.false_ne_true,
      locate_end hlimits hpath hs hway hlinks (by simp [hat]), hat]
    simp only [hat]

/-- A file is removed. -/
lemma unlink_end (hrefused : isRefused path = false) {content : Text}
    (hat : d.at? (n ++ [s]) = some (.file content)) : d.unlink path = .ok (d.erase (n ++ [s])) := by
  rw [unlink, hrefused, if_neg Bool.false_ne_true,
    locate_end hlimits hpath hs hway hlinks (by simp [hat]), hat]
  simp only [hat]
  rfl

end Requests

/-! ### Directories without limits -/

/-- Nothing but directories is in the way of some names. -/
def IsClear (d : Disk) (n more : List Text) : Prop :=
  ∀ front, front <+: more → front ≠ [] →
    d.at? (n ++ front) = none ∨ d.at? (n ++ front) = some .directory

section Clear

variable (h : d.WellFormed)
include h

/-- Directories that lie in one another are a way. -/
lemma Way.append_names {base n more : List Text} {links : Nat} (hway : Way d links [] base n)
    (hmore : AreNames more) (hat : d.at? (n ++ more) = some .directory) :
    Way d links [] (base ++ more) (n ++ more) := by
  induction more using List.reverseRecOn with
  | nil => rwa [List.append_nil, List.append_nil]
  | append_singleton front last ih =>
    have hfront : d.at? (n ++ front) = some .directory :=
      h.at?_of_prefix hat (by rw [← List.append_assoc]; exact List.prefix_append _ _) (by simp)
    have hstep := ih hmore.left hfront
    rw [← List.append_assoc, ← List.append_assoc]
    rw [← List.append_assoc] at hat
    exact hstep.append (.enter (hmore last (by simp)).isStep
      (refusesName_of_limits hlimits last) hat .done)

/-- Behind a directory that is missing on the way, nothing is found and nothing can be made. -/
lemma locate_missing (aim : Aim) {more : List Text} {path : Text} {last : Text}
    (hmore : AreNames more) (hlast : last ≠ []) :
    ∀ {base n : List Text} {links : Nat}, Path.segments path = base ++ (more ++ [last]) →
      Way d links [] base n → links ≤ maxLinks → IsClear d n more → d.at? (n ++ more) = none →
      d.locate aim path = .failed .noEntry := by
  induction more with
  | nil =>
    intro base n links _ hway _ _ hnone
    rw [List.append_nil, hway.at?_last h at?_nil] at hnone
    cases hnone
  | cons s more ih =>
    intro base n links hpath hway hlinks hclear hnone
    have hs : IsName s := hmore s List.mem_cons_self
    rcases hclear [s] (by simp) (by simp) with hat | hat
    · have hall : (more ++ [last]).all List.isEmpty = false := by
        simp [hlast]
      have hbehind : (s :: (more ++ [last])).all List.isEmpty = false := by
        rw [List.all_cons, hall, Bool.and_false]
      have hne : path ≠ [] := by
        rintro rfl
        have hlength := congrArg List.length hpath
        have hone : (Path.segments []).length = 1 := rfl
        rw [hone] at hlength
        simp at hlength
        omega
      rw [locate, List.isEmpty_eq_false_iff.2 hne, if_neg Bool.false_ne_true,
        refusesPath_of_limits hlimits, if_neg Bool.false_ne_true, hpath, List.cons_append,
        hway.passWithin_append hlinks hbehind, passWithin_cons hs.isStep (by simp) fun _ => hall,
        refusesName_of_limits hlimits, if_neg Bool.false_ne_true, hat]
    · have hstep : Way d links [] (base ++ [s]) (n ++ [s]) :=
        hway.append_names hlimits h (areNames_singleton hs) hat
      have hpath' : Path.segments path = base ++ [s] ++ (more ++ [last]) := by
        rw [hpath]
        simp
      refine ih (fun t ht => hmore t (List.mem_cons_of_mem s ht)) hpath' hstep hlinks ?_ ?_
      · intro front hfront hne
        have hrest := hclear (s :: front) (by simpa using hfront) (by simp)
        simpa using hrest
      · simpa using hnone

/-- Making a directory succeeds where nothing is, and where it is already. -/
lemma ensureDirectory_end {path : Text} {front n : List Text} {s : Text} {links : Nat}
    (hpath : Path.segments path = front ++ [s]) (hs : IsName s) (hway : Way d links [] front n)
    (hlinks : links ≤ maxLinks) (hrefused : isRefused path = false)
    (hat : d.at? (n ++ [s]) = none ∨ d.at? (n ++ [s]) = some .directory) :
    (d.ensureDirectory path).failure = none ∧ Made d (d.ensureDirectory path).disk (n ++ [s]) := by
  have hmake := makeDirectory_of_way hpath hs.isStep hway hlinks
  rw [refusesPath_of_limits hlimits, refusesName_of_limits hlimits, Bool.or_false,
    if_neg Bool.false_ne_true] at hmake
  have hdirectory := hway.at?_last h at?_nil
  rcases hat with hat | hat
  · rw [hat] at hmake
    rw [ensureDirectory, hmake]
    exact ⟨rfl, (Made.refl h hdirectory).concat
      ((h.areNames_of_at? hdirectory).append (areNames_singleton hs)) hat⟩
  · rw [hat] at hmake
    have hprobe : d.probe path = .ok (some .directory) := by
      rw [probe, hrefused, find_end hlimits hpath hs.isStep hway hlinks hat (by simp)]
      rfl
    rw [ensureDirectory, hmake]
    simp only [hprobe]
    exact ⟨trivial, .refl h hat⟩

/-- **Directories can be made where nothing is in the way.**

**Proof sketch.** Induction on the names from the last one on. If the directory that is to hold the
last one is there, so is the way to it. Otherwise the request to make the last one finds it missing,
and it is made first. -/
theorem makeLineage_of_isClear {base more n : List Text} {links : Nat}
    (hbase : ∀ s ∈ base, .of '/' ∉ s) (hway : Way d links [] base n) (hlinks : links ≤ maxLinks)
    (hmore : AreNames more) (hne : more ≠ []) (hclear : IsClear d n more)
    (hrefused : ∀ s ∈ base ++ more, isRefused s = false) :
    (d.makeLineage (base ++ more).reverse).failure = none ∧
      Made d (d.makeLineage (base ++ more).reverse).disk (n ++ more) := by
  induction more using List.reverseRecOn with
  | nil => exact absurd rfl hne
  | append_singleton front last ih =>
    have hlast : IsName last := hmore last (by simp)
    have hpath := segments_lineage hbase hmore
    have hplain : isRefused (below (last :: (base ++ front).reverse).reverse).toText = false := by
      refine isRefused_below fun s hs => hrefused s ?_
      simpa [or_comm, or_assoc, or_left_comm] using hs
    have hthere := hclear (front ++ [last]) (List.prefix_refl _) (by simp)
    rw [← List.append_assoc, List.reverse_append, List.reverse_singleton, List.singleton_append,
      makeLineage]
    by_cases hfront : d.at? (n ++ front) = some .directory
    · have hstep := Way.nil_cons_iff.2 (hway.append_names hlimits h hmore.left hfront)
      have hmake := makeDirectory_of_way hpath hlast.isStep hstep hlinks
      split
      · rename_i hmissing
        rw [hmissing] at hmake
        split at hmake
        · cases hmake
        · split at hmake <;> cases hmake
      · rw [← List.append_assoc] at hthere ⊢
        exact ensureDirectory_end hlimits h hpath hlast hstep hlinks hplain hthere
    · have hne : front ≠ [] := by
        rintro rfl
        rw [List.append_nil, hway.at?_last h at?_nil] at hfront
        exact hfront rfl
      have habove : IsClear d n front := fun m hm => hclear m (hm.trans (List.prefix_append _ _))
      have hnone := (habove front (List.prefix_refl _) hne).resolve_right hfront
      have hcut : Path.segments (below (last :: (base ++ front).reverse).reverse).toText =
          ([] :: base) ++ (front ++ [last]) := by
        rw [hpath, List.cons_append, List.cons_append, List.append_assoc]
      have hmissing := locate_missing hlimits h .name hmore.left hlast.ne_nil hcut
        (Way.nil_cons_iff.2 hway) hlinks habove hnone
      obtain ⟨hok, hmade⟩ := ih hmore.left hne habove fun s hs => hrefused s (by
        rw [← List.append_assoc]
        exact List.mem_append_left _ hs)
      have hkeeps := keepsFiles_makeLineage (d := d) (base ++ front).reverse
      rw [makeDirectory, hmissing]
      generalize d.makeLineage (base ++ front).reverse = made at hok hmade hkeeps
      obtain ⟨d₁, failure⟩ := made
      dsimp only at hok hmade hkeeps
      subst hok
      dsimp only
      have hlimits₁ : d₁.limits = none := hmade.limits.trans hlimits
      have hway₁ : Way d₁ links [] base n :=
        hway.mono hmade.limits fun _ _ hat _ => hkeeps.at?_eq_some hat
      have hlast₁ : d₁.at? (n ++ front) = some .directory := by
        rw [hmade.at?_eq, if_pos (List.prefix_refl _)]
      have hstep : Way d₁ links [] ([] :: (base ++ front)) (n ++ front) :=
        Way.nil_cons_iff.2 (hway₁.append_names hlimits₁ hmade.wellFormed hmore.left hlast₁)
      have hfree : d₁.at? (n ++ front ++ [last]) = none := by
        rw [hmade.at?_eq, if_neg (not_concat_isPrefix _ last), h.at?_append_eq_none hnone]
      obtain ⟨hok, hlater⟩ := ensureDirectory_end hlimits₁ hmade.wellFormed hpath hlast hstep hlinks
        hplain (.inl hfree)
      rw [← List.append_assoc]
      exact ⟨hok, hmade.trans hlater⟩

end Clear

end Unlimited

end GlobPreset.Disk
