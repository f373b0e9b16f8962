import GlobPreset.Proofs.FileSystem.Content
import GlobPreset.Proofs.FileSystem.Ordinary

/-!
# What changes of a disk without links leave

On a disk without links a path leads to the entry of its own names or nowhere. So what a request
finds is decided by the entry at these names, as soon as the directory that holds it is there; and
what a request changes is the entry at these names alone.

## Main definitions

* `Disk.isTooLong` — the system does not take the path of some names.
* `Disk.Made` — directories were made down to some names, and nothing else was changed.
* `Disk.Filed` — a file was written into a directory that was made for it, and nothing else was
  changed.

## Main results

* `Disk.WellFormed.locate_below` — where a path ends whose directory is there.
* `Disk.WellFormed.probe_below` — what asking for such a path gives.
* `Disk.WellFormed.put` — putting an entry into a directory that is there keeps a disk well-formed.
* `Disk.IsUnlinked.made_of_makeLineage` — **what making directories leaves**.
* `Disk.IsUnlinked.write_below` — **what writing a file leaves**.
* `Disk.Filed.of_write`, `Disk.Filed.read_eq` — **what was written is read** again.
* `Disk.IsUnlinked.resolve_below_eq_ok` — the path of a directory is resolved to itself.
-/

set_option autoImplicit false

namespace GlobPreset.Disk

open GlobPreset.Path Location

variable {d d' : Disk}

/-! ### Entries -/

/-- A longer list of names is not in front of a shorter one. -/
lemma not_concat_isPrefix (n : List Text) (last : Text) : ¬ n ++ [last] <+: n := by
  intro hlead
  have hlength := hlead.length_le
  rw [List.length_append, List.length_singleton] at hlength
  omega

/-- What leads to an entry are directories. -/
lemma WellFormed.at?_of_prefix (h : d.WellFormed) {n m : List Text} {node : DiskNode}
    (hat : d.at? m = some node) (hn : n <+: m) (hne : n ≠ m) : d.at? n = some .directory := by
  induction m using List.reverseRecOn generalizing node with
  | nil => exact absurd (List.prefix_nil.1 hn) hne
  | append_singleton m last ih =>
    have hm : d.at? m = some .directory := by
      have hdirectory := h.at?_dropLast hat
      rwa [List.dropLast_concat] at hdirectory
    rcases List.prefix_concat_iff.1 hn with rfl | hn
    · exact absurd rfl hne
    · by_cases heq : n = m
      · rw [heq, hm]
      · exact ih hm hn heq

/-- An entry stands at names. -/
lemma WellFormed.areNames_of_at? (h : d.WellFormed) {n : List Text} {node : DiskNode}
    (hat : d.at? n = some node) : AreNames n := by
  by_cases hne : n = []
  · rw [hne]
    exact areNames_nil
  · exact (h.areNames n (List.mem_map.2 ⟨_, (h.at?_eq_some hne).1 hat, rfl⟩)).2

/-- Where nothing is, there is nothing inside. -/
lemma WellFormed.at?_append_eq_none (h : d.WellFormed) {n : List Text} (hat : d.at? n = none)
    (more : List Text) : d.at? (n ++ more) = none := by
  by_cases hmore : more = []
  · rwa [hmore, List.append_nil]
  cases hnode : d.at? (n ++ more) with
  | none => rfl
  | some node =>
    rw [h.at?_of_prefix hnode (List.prefix_append n more) (by simpa using hmore)] at hat
    cases hat

/-- Without the entry at some names, that at others is found. -/
lemma lookup?_filter_of_ne {names n : List Text} (hne : n ≠ names)
    (nodes : List (List Text × DiskNode)) :
    lookup? n (nodes.filter (fun n => decide (n.1 ≠ names))) = lookup? n nodes := by
  induction nodes with
  | nil => rfl
  | cons first rest ih =>
    by_cases hfirst : first.1 = names
    · have hother : first.1 ≠ n := fun e => hne (e ▸ hfirst)
      simpa [hfirst, lookup?, hother, Ne.symm hne] using ih
    · simp only [List.filter_cons, hfirst, ne_eq, not_false_eq_true, decide_true, if_true, lookup?,
        ih]

/-- Other names keep their entries. -/
lemma at?_put_of_ne {names n : List Text} (hne : n ≠ names) (node : DiskNode) :
    (d.put names node).at? n = d.at? n := by
  have hother : lookup? n [(names, node)] = none := by simp [lookup?, Ne.symm hne]
  rw [at?, at?, put, lookup?_append, hother, Option.or_none, lookup?_filter_of_ne hne]

/-- What is there after something was put somewhere was there before, or it was put there. -/
lemma cases_of_at?_put {names n : List Text} {node node' : DiskNode} (hne : names ≠ [])
    (h : (d.put names node).at? n = some node') :
    d.at? n = some node' ∨ n = names ∧ node' = node := by
  by_cases heq : n = names
  · rw [heq, at?_put hne] at h
    exact .inr ⟨heq, (Option.some.inj h).symm⟩
  · rw [at?_put_of_ne heq] at h
    exact .inl h

/-- **Putting an entry into a directory** that is there keeps a disk well-formed, unless a directory
is replaced. -/
lemma WellFormed.put (h : d.WellFormed) {front : List Text} {last : Text}
    (hn : AreNames (front ++ [last])) (hdirectory : d.at? front = some .directory)
    (hat : d.at? (front ++ [last]) ≠ some .directory) (node : DiskNode) :
    (d.put (front ++ [last]) node).WellFormed := by
  have hother : ∀ n, d.at? n = some .directory →
      (d.put (front ++ [last]) node).at? n = some .directory := by
    intro n hdir
    have hne : n ≠ front ++ [last] := by
      rintro rfl
      exact hat hdir
    rw [at?_put_of_ne hne, hdir]
  have hkeys : (d.put (front ++ [last]) node).nodes.map Prod.fst =
      (d.nodes.map Prod.fst).filter (fun n => decide (n ≠ front ++ [last])) ++
        [front ++ [last]] := by
    rw [Disk.put, List.map_append, List.filter_map]
    rfl
  refine ⟨?_, ?_, ?_⟩
  · rw [hkeys, List.forall_mem_append, List.forall_mem_singleton]
    exact ⟨fun n hmem => h.areNames n (List.mem_of_mem_filter hmem), by simp, hn⟩
  · rw [hkeys, List.nodup_append]
    refine ⟨h.distinct.filter _, List.nodup_singleton _, fun n hmem m hm => ?_⟩
    rw [List.mem_singleton.1 hm]
    simpa using (List.mem_filter.1 hmem).2
  · rw [hkeys, List.forall_mem_append, List.forall_mem_singleton]
    refine ⟨fun n hmem => hother _ (h.parent n (List.mem_of_mem_filter hmem)), ?_⟩
    rw [List.dropLast_concat]
    exact hother _ hdirectory

/-- There are no links if none is at any names. -/
lemma IsUnlinked.of_at? (h : d.WellFormed) (hat : ∀ n target, d.at? n ≠ some (.link target)) :
    d.IsUnlinked := by
  rintro ⟨n, node⟩ hn
  cases node with
  | link target =>
    have hne : n ≠ [] := (h.areNames n (List.mem_map.2 ⟨_, hn, rfl⟩)).1
    exact absurd ((h.at?_eq_some hne).2 hn) (hat n target)
  | file content => rfl
  | directory => rfl
  | special => rfl

/-! ### Ways -/

/-- The system does not take the path of the names: it is too long, or one of them is. -/
def isTooLong (d : Disk) (names : List Text) : Bool :=
  d.refusesPath (below names).toText || names.any d.refusesName

/-- How long paths may be depends on the limits alone. -/
lemma isTooLong_eq (hlimits : d'.limits = d.limits) (names : List Text) :
    d'.isTooLong names = d.isTooLong names := by
  have hname : d'.refusesName = d.refusesName := by
    funext name
    rw [refusesName, refusesName, hlimits]
  rw [isTooLong, isTooLong, refusesPath, refusesPath, hlimits, hname]

/-- A path of names is taken if these are. -/
lemma isRefused_below {names : List Text} (hnames : ∀ s ∈ names, isRefused s = false) :
    isRefused (below names).toText = false := by
  rw [isRefused_eq_false_iff]
  intro c hmem
  rw [toText, below, anchorText, List.singleton_append, List.mem_cons] at hmem
  rcases hmem with rfl | hmem
  · decide
  rcases Text.mem_joinWith hmem with hmem | ⟨s, hs, hmem⟩
  · rw [List.mem_singleton.1 hmem]
    decide
  · exact isRefused_eq_false_iff.1 (hnames s hs) c hmem

/-- Going on makes a path longer. -/
lemma exists_toText_append (names more : List Text) :
    ∃ tail, (below (names ++ more)).toText = (below names).toText ++ tail := by
  by_cases hnames : names = []
  · subst hnames
    exact ⟨ofSegments more, rfl⟩
  by_cases hmore : more = []
  · subst hmore
    exact ⟨[], by rw [List.append_nil, List.append_nil]⟩
  · refine ⟨.of '/' :: ofSegments more, ?_⟩
    rw [toText, toText, below, below, ofSegments_append hnames hmore, List.append_assoc]

/-- Where a longer path is taken, the path is taken as well. -/
lemma takes_of_append {names more : List Text}
    (hrefused : isRefused (below (names ++ more)).toText = false)
    (hlong : d.isTooLong (names ++ more) = false) :
    isRefused (below names).toText = false ∧ d.isTooLong names = false := by
  obtain ⟨tail, htail⟩ := exists_toText_append names more
  rw [isTooLong, Bool.or_eq_false_iff, List.any_append, Bool.or_eq_false_iff, htail] at hlong
  rw [htail] at hrefused
  obtain ⟨hrefused, hfits⟩ := refusals_of_append hrefused hlong.1
  exact ⟨hrefused, by rw [isTooLong, hfits, hlong.2.1, Bool.false_or]⟩

/-- A way that meets no link is the whole way. -/
lemma passWithin_eq_pass {aim : Aim} {links : Nat} {current segs : List Text}
    (hpass : ∀ directory target pending,
      d.pass aim current segs ≠ .atLink directory target pending) :
    d.passWithin aim links current segs = d.pass aim current segs := by
  cases links with
  | zero =>
    rw [passWithin]
    split
    · rename_i hlink
      exact absurd hlink (hpass _ _ _)
    · rfl
  | succ links =>
    rw [passWithin]
    split
    · rename_i hlink
      exact absurd hlink (hpass _ _ _)
    · rfl

namespace WellFormed

variable (h : d.WellFormed)
include h

/-- Where the way through names ends, if the directory that holds the last one is there and that is
no link. -/
lemma pass_concat (aim : Aim) {front : List Text} {last : Text} (hn : AreNames (front ++ [last])) :
    ∀ current : List Text, d.at? (current ++ front) = some .directory →
      (∀ target, d.at? (current ++ (front ++ [last])) ≠ some (.link target)) →
      d.pass aim current (front ++ [last]) =
        if (front ++ [last]).any d.refusesName then .failed .nameTooLong
        else
          match d.at? (current ++ (front ++ [last])) with
          | none => .vacant (current ++ (front ++ [last]))
          | some _ => .found (current ++ (front ++ [last])) := by
  have hlast : IsName last := hn last (by simp)
  induction front with
  | nil =>
    intro current _ hlink
    have hskip : ¬ (last = [] ∨ last = [.of '.']) := fun hor => hor.elim hlast.ne_nil hlast.ne_dot
    rw [List.nil_append] at hlink ⊢
    rw [pass, if_neg hskip, if_neg hlast.ne_dots, if_neg (by simp)]
    by_cases hrefused : d.refusesName last = true
    · simp [hrefused]
    rw [if_neg hrefused, if_neg (by simpa using hrefused)]
    dsimp only
    cases hat : d.at? (current ++ [last]) with
    | none => rfl
    | some node =>
      cases node with
      | directory => rfl
      | link target => exact absurd hat (hlink target)
      | file content => rfl
      | special => rfl
  | cons s front ih =>
    intro current hdirectory hlink
    have hs : IsName s := hn s (by simp)
    have hskip : ¬ (s = [] ∨ s = [.of '.']) := fun hor => hor.elim hs.ne_nil hs.ne_dot
    have hstay : ¬ (aim = .content ∧ front ++ [last] ≠ [] ∧
        (front ++ [last]).all List.isEmpty = true) := by
      rintro ⟨-, -, hall⟩
      have hempty := List.all_eq_true.1 hall last (by simp)
      exact hlast.ne_nil (List.isEmpty_iff.1 hempty)
    have hsplit : current ++ s :: front = (current ++ [s]) ++ front := by simp
    have hlonger : current ++ (s :: front ++ [last]) = (current ++ [s]) ++ (front ++ [last]) := by
      simp
    have hat : d.at? (current ++ [s]) = some .directory := by
      by_cases hfront : front = []
      · rwa [hsplit, hfront, List.append_nil] at hdirectory
      · rw [hsplit] at hdirectory
        exact h.at?_of_prefix hdirectory (List.prefix_append _ _) (by simpa using hfront)
    rw [hlonger] at hlink ⊢
    rw [List.cons_append, pass, if_neg hskip, if_neg hs.ne_dots, if_neg hstay]
    by_cases hrefused : d.refusesName s = true
    · simp [hrefused]
    rw [if_neg hrefused]
    simp only [hat]
    rw [ih (fun t ht => hn t (List.mem_cons_of_mem s ht)) _ (hsplit ▸ hdirectory) hlink,
      List.any_cons, Bool.eq_false_iff.2 hrefused, Bool.false_or]

section Child

variable {front : List Text} {last : Text} (hn : AreNames (front ++ [last]))
  (hdirectory : d.at? front = some .directory)
  (hlink : ∀ target, d.at? (front ++ [last]) ≠ some (.link target))
include hn hdirectory hlink

/-- **Where a path ends** whose directory is there, and which is that of no link. -/
lemma locate_below (aim : Aim) :
    d.locate aim (below (front ++ [last])).toText =
      if d.isTooLong (front ++ [last]) then .failed .nameTooLong
      else
        match d.at? (front ++ [last]) with
        | none => .vacant (front ++ [last])
        | some _ => .found (front ++ [last]) := by
  have hl := isProper_below hn
  have hway := h.pass_concat aim hn [] hdirectory hlink
  rw [List.nil_append] at hway
  rw [isTooLong]
  by_cases hlong : d.refusesPath (below (front ++ [last])).toText = true
  · rw [locate_of_refusesPath hl hlong, hlong, Bool.true_or, if_pos rfl]
  · have hfits : d.refusesPath (below (front ++ [last])).toText = false := by simpa using hlong
    rw [locate_toText hl hfits, hfits, Bool.false_or, ← hway]
    refine passWithin_eq_pass fun directory target pending hmet => ?_
    change d.pass aim [] (front ++ [last]) = _ at hmet
    rw [hway] at hmet
    split at hmet
    · cases hmet
    · split at hmet <;> cases hmet

/-- What such a path leads to. -/
lemma find_below :
    d.find (below (front ++ [last])).toText =
      if d.isTooLong (front ++ [last]) then .error .nameTooLong
      else
        match d.at? (front ++ [last]) with
        | none => .error .noEntry
        | some node => .ok (front ++ [last], node) := by
  rw [find, h.locate_below hn hdirectory hlink]
  by_cases hlong : d.isTooLong (front ++ [last]) = true
  · rw [if_pos hlong, if_pos hlong]
  · rw [if_neg hlong, if_neg hlong]
    cases hat : d.at? (front ++ [last]) with
    | none => rfl
    | some node => simp only [hat]

/-- **What asking for such a path gives.** -/
lemma probe_below :
    d.probe (below (front ++ [last])).toText =
      if isRefused (below (front ++ [last])).toText then .ok none
      else if d.isTooLong (front ++ [last]) then
        .error (.system .nameTooLong (below (front ++ [last])).toText)
      else .ok ((d.at? (front ++ [last])).map kindOf) := by
  rw [probe, h.find_below hn hdirectory hlink]
  by_cases hlong : d.isTooLong (front ++ [last]) = true
  · rw [if_pos hlong, if_pos hlong]
  · rw [if_neg hlong, if_neg hlong]
    cases d.at? (front ++ [last]) <;> rfl

end Child

/-- The path of a directory is not one that leads through links. -/
lemma find_ne_tooManyLinks {names : List Text} (hn : AreNames names)
    (hat : d.at? names = some .directory) :
    d.find (below names).toText ≠ .error .tooManyLinks := by
  induction names using List.reverseRecOn with
  | nil =>
    by_cases hlong : d.refusesPath (below []).toText = true
    · rw [find, locate_of_refusesPath (isProper_below hn) hlong]
      simp
    · have hroot : d.find (below []).toText = .ok ([], .directory) :=
        (find_toText (isProper_below hn)).2 ⟨by simpa using hlong, rfl, rfl⟩
      simp [hroot]
  | append_singleton front last =>
    have hfront := h.at?_of_prefix hat (List.prefix_append front [last]) (by simp)
    rw [h.find_below hn hfront (by simp [hat]), hat]
    split <;> simp

end WellFormed

namespace IsUnlinked

variable (hu : d.IsUnlinked) (h : d.WellFormed)
include hu h

/-- A way through names fails unless the directory that holds the last one is there. -/
lemma pass_failed (aim : Aim) {front : List Text} {last : Text} (hn : AreNames (front ++ [last])) :
    ∀ current : List Text, d.at? current = some .directory →
      (∃ e, d.pass aim current (front ++ [last]) = .failed e) ∨
        d.at? (current ++ front) = some .directory := by
  induction front with
  | nil => exact fun current hcurrent => .inr (by rwa [List.append_nil])
  | cons s front ih =>
    intro current _
    have hs : IsName s := hn s (by simp)
    have hskip : ¬ (s = [] ∨ s = [.of '.']) := fun hor => hor.elim hs.ne_nil hs.ne_dot
    rw [List.cons_append, pass, if_neg hskip, if_neg hs.ne_dots]
    split
    · exact .inl ⟨_, rfl⟩
    split
    · exact .inl ⟨_, rfl⟩
    have hmore : (front ++ [last]).isEmpty = false := by simp
    rw [hmore]
    dsimp only
    cases hat : d.at? (current ++ [s]) with
    | none => exact .inl ⟨_, rfl⟩
    | some node =>
      cases node with
      | directory =>
        have hrest := ih (fun t ht => hn t (List.mem_cons_of_mem s ht)) (current ++ [s]) hat
        rwa [List.append_assoc, List.singleton_append] at hrest
      | link target => exact absurd hat (hu.at?_ne_link h _ _)
      | file content => exact .inl ⟨_, rfl⟩
      | special => exact .inl ⟨_, rfl⟩

/-- A request fails unless the directory is there that holds what its path names. -/
lemma locate_failed (aim : Aim) {front : List Text} {last : Text}
    (hn : AreNames (front ++ [last])) :
    (∃ e, d.locate aim (below (front ++ [last])).toText = .failed e) ∨
      d.at? front = some .directory := by
  have hl := isProper_below hn
  by_cases hlong : d.refusesPath (below (front ++ [last])).toText = true
  · exact .inl ⟨_, locate_of_refusesPath hl hlong aim⟩
  have hfits : d.refusesPath (below (front ++ [last])).toText = false := by simpa using hlong
  rw [locate_toText hl hfits]
  refine (hu.pass_failed h aim hn [] at?_nil).imp_left fun ⟨e, he⟩ => ⟨e, ?_⟩
  have hpass : d.pass aim [] (below (front ++ [last])).segments = .failed e := he
  rw [passWithin_eq_pass, hpass]
  intro directory target pending
  rw [hpass]
  exact Passage.noConfusion

/-! ### Requests -/

/-- A path leads to a directory that stands at its own names. -/
lemma at?_of_probe {l : Location} (hl : l.IsProper)
    (hprobe : d.probe l.toText = .ok (some .directory)) :
    d.at? l.segments = some .directory := by
  obtain ⟨-, names, node, hfind, hnode⟩ := kind?_eq_some.1 (probe_eq_some.1 hprobe)
  obtain rfl := hu.names_of_find h hl hfind
  obtain ⟨-, -, hat⟩ := (find_toText hl).1 hfind
  cases node with
  | directory => exact hat
  | file content => cases hnode
  | link target => cases hnode
  | special => cases hnode

section Requests

variable {front : List Text} {last : Text} (hn : AreNames (front ++ [last]))
include hn

/-- A directory can be made where nothing is, in a directory that is there. -/
lemma makeDirectory_below (hmade : d.makeDirectory (below (front ++ [last])).toText = .ok d') :
    d.at? front = some .directory ∧ d.at? (front ++ [last]) = none ∧
      d' = d.put (front ++ [last]) .directory := by
  unfold makeDirectory at hmade
  rcases hu.locate_failed h .name hn with ⟨e, he⟩ | hdirectory
  · rw [he] at hmade
    cases hmade
  rw [h.locate_below hn hdirectory (hu.at?_ne_link h _)] at hmade
  by_cases hlong : d.isTooLong (front ++ [last]) = true
  · rw [if_pos hlong] at hmade
    cases hmade
  rw [if_neg hlong] at hmade
  cases hat : d.at? (front ++ [last]) with
  | none =>
    rw [hat] at hmade
    exact ⟨hdirectory, rfl, (Except.ok.inj hmade).symm⟩
  | some node =>
    rw [hat] at hmade
    cases hmade

/-- A file is written where its path is taken, into a directory that is there. -/
lemma takes_of_write {content : Text}
    (hwrite : d.write (below (front ++ [last])).toText content = .ok d') :
    isRefused (below (front ++ [last])).toText = false ∧ d.isTooLong (front ++ [last]) = false ∧
      d.at? front = some .directory := by
  unfold write at hwrite
  split at hwrite
  · cases hwrite
  rename_i hrefused
  rcases hu.locate_failed h .content hn with ⟨e, he⟩ | hdirectory
  · rw [he] at hwrite
    cases hwrite
  rw [h.locate_below hn hdirectory (hu.at?_ne_link h _)] at hwrite
  by_cases hlong : d.isTooLong (front ++ [last]) = true
  · rw [if_pos hlong] at hwrite
    cases hwrite
  · exact ⟨by simpa using hrefused, by simpa using hlong, hdirectory⟩

/-- **What writing a file leaves**: the file, unless a special entry took what was written. -/
lemma write_below {content : Text} (hspecial : d.at? (front ++ [last]) ≠ some .special)
    (hwrite : d.write (below (front ++ [last])).toText content = .ok d') :
    d.at? (front ++ [last]) ≠ some .directory ∧ d' = d.put (front ++ [last]) (.file content) := by
  obtain ⟨hrefused, hlong, hdirectory⟩ := hu.takes_of_write h hn hwrite
  rw [write, hrefused, if_neg Bool.false_ne_true,
    h.locate_below hn hdirectory (hu.at?_ne_link h _), hlong, if_neg Bool.false_ne_true] at hwrite
  cases hat : d.at? (front ++ [last]) with
  | none =>
    rw [hat] at hwrite
    exact ⟨by simp, (Except.ok.inj hwrite).symm⟩
  | some node =>
    simp only [hat] at hwrite
    cases node with
    | directory => cases hwrite
    | file c => exact ⟨by simp, (Except.ok.inj hwrite).symm⟩
    | link target => exact absurd hat (hu.at?_ne_link h _ _)
    | special => exact absurd hat hspecial

end Requests

end IsUnlinked

/-! ### Making directories -/

/-- Directories were made down to some names, and nothing else was changed. -/
structure Made (d d' : Disk) (names : List Text) : Prop where
  /-- The disk is well-formed as before. -/
  wellFormed : d'.WellFormed
  /-- It has the same limits. -/
  limits : d'.limits = d.limits
  /-- Directories lead down to the names; all other entries are as before. -/
  at?_eq : ∀ n, d'.at? n = if n <+: names then some .directory else d.at? n

namespace Made

variable {names : List Text}

/-- Where directories lead down already, none is made. -/
lemma refl (h : d.WellFormed) (hat : d.at? names = some .directory) : Made d d names where
  wellFormed := h
  limits := rfl
  at?_eq n := by
    split
    · rename_i hn
      by_cases heq : n = names
      · rw [heq, hat]
      · exact h.at?_of_prefix hat hn heq
    · rfl

/-- One more directory is made behind those that were made. -/
lemma concat {front : List Text} {last : Text} (hmade : Made d d' front)
    (hn : AreNames (front ++ [last])) (hat : d'.at? (front ++ [last]) = none) :
    Made d (d'.put (front ++ [last]) .directory) (front ++ [last]) where
  wellFormed := by
    have hfront : d'.at? front = some .directory := by
      rw [hmade.at?_eq, if_pos (List.prefix_refl front)]
    exact hmade.wellFormed.put hn hfront (by simp [hat]) .directory
  limits := hmade.limits
  at?_eq n := by
    by_cases heq : n = front ++ [last]
    · rw [heq, at?_put (by simp), if_pos (List.prefix_refl _)]
    · have hlead : n <+: front ++ [last] ↔ n <+: front := by
        rw [List.prefix_concat_iff, or_iff_right heq]
      rw [at?_put_of_ne heq, hmade.at?_eq]
      simp only [hlead]

/-- No link is made. -/
lemma isUnlinked (hmade : Made d d' names) (hu : d.IsUnlinked) (h : d.WellFormed) :
    d'.IsUnlinked := by
  refine .of_at? hmade.wellFormed fun n target => ?_
  rw [hmade.at?_eq]
  split
  · simp
  · exact hu.at?_ne_link h n target

/-- Directories are made further down. -/
lemma trans {d₁ d₂ : Disk} {more : List Text} (hmade : Made d d₁ names)
    (hmore : Made d₁ d₂ (names ++ more)) : Made d d₂ (names ++ more) where
  wellFormed := hmore.wellFormed
  limits := hmore.limits.trans hmade.limits
  at?_eq n := by
    rw [hmore.at?_eq, hmade.at?_eq]
    split
    · rfl
    · rename_i hn
      rw [if_neg fun hlead => hn (hlead.trans (List.prefix_append _ _))]

end Made

namespace IsUnlinked

/-- Making a directory that may be there already. -/
lemma made_of_ensureDirectory (hu : d.IsUnlinked) (h : d.WellFormed) {front : List Text}
    {last : Text} (hn : AreNames (front ++ [last]))
    (hok : (d.ensureDirectory (below (front ++ [last])).toText).failure = none) :
    Made d (d.ensureDirectory (below (front ++ [last])).toText).disk (front ++ [last]) := by
  unfold ensureDirectory at hok ⊢
  cases hmade : d.makeDirectory (below (front ++ [last])).toText with
  | ok d' =>
    obtain ⟨hdirectory, hat, rfl⟩ := hu.makeDirectory_below h hn hmade
    exact (Made.refl h hdirectory).concat hn hat
  | error e =>
    simp only [hmade] at hok ⊢
    cases hprobe : d.probe (below (front ++ [last])).toText with
    | error failure => simp [hprobe] at hok
    | ok kind =>
      by_cases hkind : kind = some .directory
      · subst hkind
        simp only
        exact Made.refl h (hu.at?_of_probe h (isProper_below hn) hprobe)
      · simp only [hprobe] at hok
        cases hok

/-- **What making directories leaves**: directories down to the names, and all else as before. -/
theorem made_of_makeLineage {names : List Text} (hu : d.IsUnlinked) (h : d.WellFormed)
    (hn : AreNames names.reverse) (hok : (d.makeLineage names).failure = none) :
    Made d (d.makeLineage names).disk names.reverse := by
  induction names with
  | nil => exact Made.refl h rfl
  | cons last above ih =>
    rw [List.reverse_cons] at hn ⊢
    unfold makeLineage at hok ⊢
    rw [List.reverse_cons] at hok ⊢
    dsimp only at hok ⊢
    split at hok
    · rename_i hmissing
      cases habove : d.makeLineage above with
      | mk d₁ failure =>
        cases failure with
        | some e => simp [habove] at hok
        | none =>
          rw [habove] at ih
          simp only [habove] at hok ⊢
          have hmade : Made d d₁ above.reverse := ih hn.left rfl
          exact hmade.trans
            ((hmade.isUnlinked hu h).made_of_ensureDirectory hmade.wellFormed hn hok)
    · exact hu.made_of_ensureDirectory h hn hok

end IsUnlinked

/-! ### Writing a file -/

/-- A file was written into a directory that was made for it, and nothing else was changed. -/
structure Filed (d d' : Disk) (front : List Text) (last content : Text) : Prop where
  /-- The disk is well-formed as before. -/
  wellFormed : d'.WellFormed
  /-- It has the same limits. -/
  limits : d'.limits = d.limits
  /-- The file is there, and directories lead to it; all other entries are as before. -/
  at?_eq : ∀ n, d'.at? n =
    if n = front ++ [last] then some (.file content)
    else if n <+: front then some .directory else d.at? n
  /-- Nothing that stands for a directory gave way to it. -/
  notDirectory : d.at? (front ++ [last]) ≠ some .directory
  /-- The path of the file is one that requests take. -/
  notRefused : isRefused (below (front ++ [last])).toText = false
  /-- The system takes it, too. -/
  notTooLong : d.isTooLong (front ++ [last]) = false

namespace Filed

variable {front : List Text} {last content : Text}

/-- **Writing a file where its directory was made**, unless a special entry takes its place. -/
theorem of_write {d₁ : Disk} (hu : d.IsUnlinked) (h : d.WellFormed)
    (hn : AreNames (front ++ [last])) (hmade : Made d d₁ front)
    (hspecial : d.probe (below (front ++ [last])).toText ≠ .ok (some .other))
    (hwrite : d₁.write (below (front ++ [last])).toText content = .ok d') :
    Filed d d' front last content := by
  have hat : d₁.at? (front ++ [last]) = d.at? (front ++ [last]) := by
    rw [hmade.at?_eq, if_neg (not_concat_isPrefix front last)]
  obtain ⟨hrefused, hlong, hdirectory⟩ :=
    (hmade.isUnlinked hu h).takes_of_write hmade.wellFormed hn hwrite
  rw [isTooLong_eq hmade.limits] at hlong
  have hplain : d.at? (front ++ [last]) ≠ some .special := by
    intro htaken
    have hfront := h.at?_of_prefix htaken (List.prefix_append front [last]) (by simp)
    rw [h.probe_below hn hfront (hu.at?_ne_link h _), hrefused, hlong, htaken] at hspecial
    exact hspecial rfl
  obtain ⟨hnot, rfl⟩ :=
    (hmade.isUnlinked hu h).write_below hmade.wellFormed hn (hat ▸ hplain) hwrite
  refine ⟨hmade.wellFormed.put hn hdirectory hnot _, hmade.limits,
    fun n => ?_, hat ▸ hnot, hrefused, hlong⟩
  split
  · rename_i heq
    rw [heq, at?_put (by simp)]
  · rename_i hne
    rw [at?_put_of_ne hne, hmade.at?_eq]

variable (hfiled : Filed d d' front last content) (hn : AreNames (front ++ [last]))
include hfiled

/-- No link is made. -/
lemma isUnlinked (hu : d.IsUnlinked) (h : d.WellFormed) : d'.IsUnlinked := by
  refine .of_at? hfiled.wellFormed fun n target => ?_
  rw [hfiled.at?_eq]
  split
  · simp
  · split
    · simp
    · exact hu.at?_ne_link h n target

/-- Directories are where they were. -/
lemma at?_directory {names : List Text} (hat : d.at? names = some .directory) :
    d'.at? names = some .directory := by
  rw [hfiled.at?_eq, hat, ite_self, if_neg]
  rintro rfl
  exact hfiled.notDirectory hat

include hn

/-- The path of the file leads to it. -/
lemma find_eq :
    d'.find (below (front ++ [last])).toText = .ok (front ++ [last], .file content) := by
  have hdirectory : d'.at? front = some .directory := by
    rw [hfiled.at?_eq, if_neg (by simp), if_pos (List.prefix_refl front)]
  have hfile : d'.at? (front ++ [last]) = some (.file content) := by
    rw [hfiled.at?_eq, if_pos rfl]
  rw [hfiled.wellFormed.find_below hn hdirectory (by simp [hfile]), isTooLong_eq hfiled.limits,
    hfiled.notTooLong, if_neg Bool.false_ne_true, hfile]

/-- **The file is found.** -/
lemma probe_eq : d'.probe (below (front ++ [last])).toText = .ok (some .file) := by
  rw [probe, hfiled.notRefused, hfiled.find_eq hn]
  rfl

/-- **What was written is read.** -/
lemma read_eq (hcontent : content.IsEncodable) :
    d'.read (below (front ++ [last])).toText = .ok content :=
  read_eq_of_find hfiled.notRefused (hfiled.find_eq hn) hcontent

end Filed

/-! ### Resolving -/

namespace IsUnlinked

variable (hu : d.IsUnlinked) (h : d.WellFormed)
include hu h

/-- Names are resolved to themselves, unless one is refused. -/
lemma resolveSegments_names (follow : List Text → Text → Met → Resolution × Met) {segs : List Text}
    (hn : AreNames segs) : ∀ (current : List Text) (met : Met),
      if segs.any isRefused then
        ∃ path, (d.resolveSegments follow current met segs).1 = .refused path
      else (d.resolveSegments follow current met segs).1 = .resolved (current ++ segs) := by
  induction segs with
  | nil => exact fun current _ => by rw [List.append_nil]; rfl
  | cons s segs ih =>
    intro current met
    have hs : IsName s := hn s List.mem_cons_self
    have hskip : ¬ (s = [] ∨ s = [.of '.']) := fun hor => hor.elim hs.ne_nil hs.ne_dot
    by_cases hrefused : isRefused s = true
    · rw [List.any_cons, hrefused, Bool.true_or, if_pos rfl, resolveSegments, if_neg hskip,
        if_neg hs.ne_dots, if_pos hrefused]
      exact ⟨_, rfl⟩
    have hstep : d.resolveSegments follow current met (s :: segs) =
        d.resolveSegments follow (current ++ [s]) met segs := by
      rw [resolveSegments, if_neg hskip, if_neg hs.ne_dots, if_neg hrefused]
      dsimp only
      split
      · rename_i hat
        exact absurd hat (hu.at?_ne_link h _ _)
      · rfl
    have hrest := ih (fun t ht => hn t (List.mem_cons_of_mem s ht)) (current ++ [s]) met
    rw [List.append_assoc, List.singleton_append] at hrest
    rw [hstep, List.any_cons, Bool.eq_false_iff.2 hrefused, Bool.false_or]
    exact hrest

/-- The path of names has no link to resolve, so it is resolved to itself unless one is refused. -/
lemma realPath?_below {names : List Text} (hn : AreNames names) :
    if names.any isRefused then ∃ e, d.realPath? (below names).toText = .error e
    else d.realPath? (below names).toText = .ok (below names).toText := by
  have hcut : Path.segments (below names).toText = [] :: Path.segments (ofSegments names) :=
    Text.splitOn_cons_sep _
  have hstart : startOf [] (below names).toText = [] := ite_self _
  have hstep : d.resolveWithin (d.nodes.length + 1) [] (below names).toText [] =
      d.resolveSegments (d.resolveWithin d.nodes.length) [] []
        (Path.segments (ofSegments names)) := by
    rw [resolveWithin, hcut, hstart, resolveSegments, if_pos (.inl rfl)]
  rw [realPath?, hstep]
  by_cases hne : names = []
  · subst hne
    rfl
  have hway := hu.resolveSegments_names h (d.resolveWithin d.nodes.length) hn [] []
  rw [segments_ofSegments hne hn]
  split at hway
  · obtain ⟨path, hway⟩ := hway
    rename_i hrefused
    rw [if_pos hrefused, hway]
    exact ⟨_, rfl⟩
  · rename_i hrefused
    rw [if_neg hrefused, hway]
    rfl

/-- **The path of a directory is resolved to itself**, unless requests do not take it. -/
lemma resolve_below_eq_ok {names : List Text} (hn : AreNames names)
    (hat : d.at? names = some .directory) {real : Text} :
    d.resolve (below names).toText = .ok real ↔
      (∀ s ∈ names, isRefused s = false) ∧ real = (below names).toText := by
  have hpath := hu.realPath?_below h hn
  rw [resolve]
  by_cases hany : names.any isRefused = true
  · rw [if_pos hany] at hpath
    obtain ⟨e, hpath⟩ := hpath
    obtain ⟨s, hs, hrefused⟩ := List.any_eq_true.1 hany
    rw [hpath]
    exact iff_of_false (by simp [bind, Except.bind]) fun hboth => by simp [hboth.1 s hs] at hrefused
  · rw [if_neg hany] at hpath
    have hnames : ∀ s ∈ names, isRefused s = false := by simpa using hany
    have hfound := h.find_ne_tooManyLinks hn hat
    rw [hpath, and_iff_right hnames]
    simp only [bind, Except.bind, isRefused_below hnames, Bool.false_eq_true, if_false]
    exact ⟨fun heq => (Except.ok.inj heq).symm, fun heq => congrArg Except.ok heq.symm⟩

end IsUnlinked

end GlobPreset.Disk
