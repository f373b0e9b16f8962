import GlobPreset.Proofs.FileSystem.Changes
import GlobPreset.Proofs.FileSystem.Ways

/-!
# What is found is what is resolved

A path is followed in one go, with a limit on the number of links. It is resolved link by link: each
target is resolved before what comes behind the link, the answers are remembered, and a link that is
met while its own target is being resolved is given up. Where following finds a directory, resolving
never gives up and ends at that directory.

## Main definitions

* `Disk.HasPlainNames`, `Disk.HasPlainWays` — no entry, or none but files, has a name that requests
  refuse.
* `Disk.LinkLeads` — a link leads to a directory, along so many further links.
* `Disk.Inside` — the links that a resolution is inside of, when so many are left to follow.
* `Disk.Knows` — what is remembered of links is true.

## Main results

* `Disk.Way.resolveSegments_eq` — **a way is resolved** to where it ends.
* `Disk.Way.realPath?_eq`, `Disk.Way.resolve_eq` — the path of a way is resolved to its directory.

## Design

A link leads along a fixed number of further links. Inside of its target fewer of them are left, so
that the link itself cannot be met again there; and different links are inside of one another at
most as often as there are entries.
-/

set_option autoImplicit false

namespace GlobPreset.Disk

open GlobPreset.Path Location

variable {d : Disk}

/-- No entry has a name that requests refuse. -/
def HasPlainNames (d : Disk) : Prop := ∀ n ∈ d.nodes.map Prod.fst, ∀ s ∈ n, isRefused s = false

instance (d : Disk) : Decidable d.HasPlainNames :=
  inferInstanceAs (Decidable (∀ n ∈ d.nodes.map Prod.fst, ∀ s ∈ n, isRefused s = false))

/-- The names of an entry are taken. -/
lemma HasPlainNames.of_at? (hplain : d.HasPlainNames) (h : d.WellFormed) {names : List Text}
    {node : DiskNode} (hat : d.at? names = some node) : ∀ s ∈ names, isRefused s = false := by
  by_cases hne : names = []
  · subst hne
    simp
  · exact hplain names (List.mem_map.2 ⟨_, (h.at?_eq_some hne).1 hat, rfl⟩)

/-- All names are taken if those of each entry are. -/
lemma hasPlainNames_of_at? (h : d.WellFormed)
    (hat : ∀ names node, d.at? names = some node → ∀ s ∈ names, isRefused s = false) :
    d.HasPlainNames := by
  intro names hnames
  obtain ⟨⟨_, node⟩, hmem, rfl⟩ := List.mem_map.1 hnames
  exact hat _ node ((h.at?_eq_some (h.areNames _ hnames).1).2 hmem)

/-- No directory and no link has a name that requests refuse. -/
def HasPlainWays (d : Disk) : Prop :=
  ∀ names node, d.at? names = some node → (∀ content, node ≠ .file content) →
    ∀ s ∈ names, isRefused s = false

/-- Where all names are taken, those on the way are. -/
lemma HasPlainNames.hasPlainWays (hplain : d.HasPlainNames) (h : d.WellFormed) : d.HasPlainWays :=
  fun _ _ hat _ => hplain.of_at? h hat

/-! ### Links -/

/-- A link leads to a directory, along so many further links. -/
def LinkLeads (d : Disk) (link : List Text) (links : Nat) (last : List Text) : Prop :=
  ∃ target, d.at? link = some (.link target) ∧
    Way d links (startOf link.dropLast target) (Path.segments target) last

/-- A link leads to one directory, along a fixed number of links. -/
lemma LinkLeads.unique {link last last' : List Text} {links links' : Nat}
    (h : LinkLeads d link links last) (h' : LinkLeads d link links' last') :
    links = links' ∧ last = last' := by
  obtain ⟨target, hat, hway⟩ := h
  obtain ⟨target', hat', hway'⟩ := h'
  obtain rfl : target = target' := by
    rw [hat] at hat'
    cases hat'
    rfl
  exact hway.unique hway'

/-- The links that a resolution is inside of: different links, each of which leads along at least as
many links as are left to follow. -/
structure Inside (d : Disk) (inside : List (List Text)) (left : Nat) : Prop where
  /-- No link is inside of itself. -/
  nodup : inside.Nodup
  /-- Each of them still has to be followed as far as is left. -/
  leads : ∀ link ∈ inside, ∃ links last, left ≤ links ∧ LinkLeads d link links last

namespace Inside

variable {inside : List (List Text)} {left left' : Nat}

/-- Being inside links leaves room for fewer of them as well. -/
lemma mono (h : Inside d inside left) (hle : left' ≤ left) : Inside d inside left' where
  nodup := h.nodup
  leads link hlink := by
    obtain ⟨links, last, hleft, hleads⟩ := h.leads link hlink
    exact ⟨links, last, hle.trans hleft, hleads⟩

/-- A link that leads along fewer links is not one of them. -/
lemma not_mem (h : Inside d inside left) {link last : List Text} {links : Nat}
    (hleads : LinkLeads d link links last) (hlt : links < left) : link ∉ inside := by
  intro hmem
  obtain ⟨links', last', hle, hleads'⟩ := h.leads link hmem
  obtain ⟨rfl, -⟩ := hleads.unique hleads'
  omega

/-- Following one more link. -/
lemma cons (h : Inside d inside left) {link last : List Text} {links : Nat}
    (hleads : LinkLeads d link links last) (hlt : links < left) :
    Inside d (link :: inside) links where
  nodup := List.nodup_cons.2 ⟨h.not_mem hleads hlt, h.nodup⟩
  leads := List.forall_mem_cons.2 ⟨⟨links, last, le_rfl, hleads⟩, (h.mono hlt.le).leads⟩

/-- There are not more of them than entries. -/
lemma length_le (h : Inside d inside left) (hd : d.WellFormed) :
    inside.length ≤ d.nodes.length := by
  have hsubset : inside ⊆ d.nodes.map Prod.fst := by
    intro link hlink
    obtain ⟨links, last, -, target, hat, -⟩ := h.leads link hlink
    have hne : link ≠ [] := by
      rintro rfl
      cases hat
    exact List.mem_map.2 ⟨_, (hd.at?_eq_some hne).1 hat, rfl⟩
  simpa using (h.nodup.subperm hsubset).length_le

end Inside

/-- What is remembered of links is true: the ones that are not answered are those that the
resolution is inside of, and the others lead where is remembered. -/
structure Knows (d : Disk) (inside : List (List Text)) (met : Met) : Prop where
  /-- A link without an answer is one that the resolution is inside of. -/
  pending : ∀ {link}, lookup? link met = some none → link ∈ inside
  /-- An answer is true. -/
  answered : ∀ {link last}, lookup? link met = some (some last) →
    ∃ links, LinkLeads d link links last

namespace Knows

variable {inside : List (List Text)} {met : Met} {link : List Text}

/-- Going into a link. -/
lemma enter (h : Knows d inside met) : Knows d (link :: inside) ((link, none) :: met) where
  pending {other} hother := by
    rw [lookup?] at hother
    split at hother
    · rename_i heq
      exact heq ▸ List.mem_cons_self
    · exact List.mem_cons_of_mem _ (h.pending hother)
  answered {other last} hother := by
    rw [lookup?] at hother
    split at hother
    · cases hother
    · exact h.answered hother

/-- Coming out of a link with an answer. -/
lemma leave (h : Knows d (link :: inside) met) {links : Nat} {last : List Text}
    (hleads : LinkLeads d link links last) : Knows d inside ((link, some last) :: met) where
  pending {other} hother := by
    rw [lookup?] at hother
    split at hother
    · cases hother
    · rename_i hne
      exact (List.mem_cons.1 (h.pending hother)).resolve_left (Ne.symm hne)
  answered {other last'} hother := by
    rw [lookup?] at hother
    split at hother
    · rename_i heq
      cases hother
      exact ⟨links, heq ▸ hleads⟩
    · exact h.answered hother

end Knows

/-! ### Resolving -/

variable (h : d.WellFormed) (hplain : d.HasPlainWays)
include h hplain

/-- **A way is resolved to where it ends**, as long as it can be gone into as many links as there
are.

**Proof sketch.** Induction on how many links may be gone into, and for each such number on the
segments. At a link the way is cut into that through its target and the rest. An answer that is
remembered is the end of the first part, since there is only one way. A link that is being resolved
already would lead along fewer links than itself. Any other link is gone into. -/
lemma Way.resolveSegments_eq (fuel : Nat) :
    ∀ {links : Nat} {current segs last : List Text} {inside : List (List Text)} {met : Met},
      Way d links current segs last → Inside d inside links → Knows d inside met →
      d.nodes.length ≤ fuel + inside.length →
      ∃ met', d.resolveSegments (d.resolveWithin fuel) current met segs = (.resolved last, met') ∧
        Knows d inside met' := by
  induction fuel using Nat.strong_induction_on with
  | _ fuel ihfuel =>
  intro links current segs
  induction segs generalizing links current with
  | nil =>
    intro last inside met hway _ hmet _
    cases hway
    exact ⟨met, rfl, hmet⟩
  | cons s segs ih =>
    intro last inside met hway hinside hmet hfuel
    rw [resolveSegments]
    cases hway with
    | stay hs hmore =>
      rw [if_pos hs]
      exact ih hmore hinside hmet hfuel
    | back hmore =>
      rw [if_neg (by decide), if_pos rfl]
      exact ih hmore hinside hmet hfuel
    | enter hs _ hat hmore =>
      have hstay : ¬ (s = [] ∨ s = [.of '.']) := fun hor => hor.elim hs.ne_nil hs.ne_dot
      have hname : isRefused s = false := hplain _ _ hat (by simp) s (by simp)
      rw [if_neg hstay, if_neg hs.ne_dots, hname, if_neg Bool.false_ne_true]
      simp only [hat]
      exact ih hmore hinside hmet hfuel
    | @follow left _ _ _ _ target hs _ hat hmore =>
      have hstay : ¬ (s = [] ∨ s = [.of '.']) := fun hor => hor.elim hs.ne_nil hs.ne_dot
      have hname : isRefused s = false := hplain _ _ hat (by simp) s (by simp)
      obtain ⟨first, second, mid, hfirst, hsecond, rfl⟩ := hmore.split
      have hleads : LinkLeads d (current ++ [s]) first mid :=
        ⟨target, hat, by rwa [List.dropLast_concat]⟩
      rw [if_neg hstay, if_neg hs.ne_dots, hname, if_neg Bool.false_ne_true]
      simp only [hat]
      have hrest := hinside.mono (show second ≤ first + second + 1 by omega)
      cases hlook : lookup? (current ++ [s]) met with
      | some answer =>
        cases answer with
        | some names =>
          obtain ⟨links', hleads'⟩ := hmet.answered hlook
          obtain ⟨-, rfl⟩ := hleads.unique hleads'
          exact ih hsecond hrest hmet hfuel
        | none => exact absurd (hmet.pending hlook) (hinside.not_mem hleads (by omega))
      | none =>
        have hdeeper := hinside.cons hleads (by omega)
        have hlength := hdeeper.length_le h
        rw [List.length_cons] at hlength
        obtain ⟨fuel, rfl⟩ : ∃ n, fuel = n + 1 := ⟨fuel - 1, by omega⟩
        obtain ⟨met', hresolved, hmet'⟩ :=
          ihfuel fuel (Nat.lt_succ_self _) hfirst hdeeper hmet.enter
          (by rw [List.length_cons]; omega)
        dsimp only
        rw [resolveWithin, hresolved]
        exact ih hsecond hrest (hmet'.leave hleads) hfuel

/-- **The real path of a way** is that of its directory. -/
theorem Way.realPath?_eq {path : Text} {links : Nat} {last : List Text}
    (hway : Way d links [] (Path.segments path) last) :
    d.realPath? path = .ok (Location.below last).toText := by
  have hstart : startOf [] path = [] := ite_self _
  have hnone : Inside d [] links := ⟨List.nodup_nil, by simp⟩
  have hnothing : Knows d [] [] := by
    constructor <;> exact fun hlook => nomatch hlook
  obtain ⟨met', hresolved, -⟩ := hway.resolveSegments_eq h hplain d.nodes.length hnone hnothing
    (Nat.le_add_right _ _)
  rw [realPath?, resolveWithin, hstart, hresolved]

/-- **The path of a way is resolved** to the directory that it ends at. -/
theorem Way.resolve_eq {path : Text} {links : Nat} {last : List Text} (hn : AreNames last)
    (hway : Way d links [] (Path.segments path) last) :
    d.resolve path = .ok (Location.below last).toText := by
  have hlast := hway.at?_last h at?_nil
  rw [resolve, hway.realPath?_eq h hplain]
  simp only [bind, Except.bind]
  rw [isRefused_below (hplain _ _ hlast (by simp)), if_neg Bool.false_ne_true]
  have hfound := h.find_ne_tooManyLinks hn hlast
  split
  · rename_i hlinks
    exact absurd hlinks hfound
  · rfl

end GlobPreset.Disk
