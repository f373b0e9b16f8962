import GlobPreset.FileSystem.Memory
import GlobPreset.Proofs.FileSystem.Project
import GlobPreset.Proofs.Path.Locations
import GlobPreset.Proofs.Text.Order

/-!
# Trees in memory answer coherently

A tree that is made by registering paths, each as one kind only, answers coherently below every
absolute path: links, special entries and directories that refuse to be listed do not matter.

## Main definitions

* `MemoryTree.WellFormed` — locations are proper, lie in directories, and are of one kind each.
* `MemoryTree.Addition`, `MemoryTree.build` — the registrations, and the tree that they make.
* `MemoryTree.arrive?` — the resolution of names with the number of links that are left over.

## Main results

* `MemoryTree.wellFormed_build` — registering paths makes a well-formed tree.
* `MemoryTree.arrive?_append` — a longer path is resolved by resolving its directory first.
* `MemoryTree.isProject` — a well-formed tree answers coherently.

## Design

Resolution starts again from the root after every link. Since the names that are passed without a
link are passed again in the same way, it may as well go on from where it was; `arrive?` makes that
a fact about the links that are left. A resolution that meets too many links ends at or below a
link, and nothing is registered there.
-/

set_option autoImplicit false

namespace GlobPreset.MemoryTree

open GlobPreset.Path Location

/-! ### Well-formed trees -/

/-- Locations are proper and lie in directories. -/
structure Rooted (t : MemoryTree) : Prop where
  /-- Relative paths start at an absolute location. -/
  root : t.root.IsProper
  /-- Every location is proper. -/
  proper : ∀ l ∈ t.locations, l.IsProper
  /-- Every location lies in a directory. -/
  parent : ∀ l ∈ t.locations, l.segments ≠ [] → l.parent ∈ t.directories

/-- Locations are proper, lie in directories, and are of one kind each. -/
structure WellFormed (t : MemoryTree) : Prop extends Rooted t where
  /-- No location is registered twice. -/
  distinct : t.locations.Nodup

/-- Something is found under a key if it is one of the keys. -/
lemma lookup?_isSome {α β : Type} [DecidableEq α] (k : α) (pairs : List (α × β)) :
    (lookup? k pairs).isSome = true ↔ k ∈ pairs.map Prod.fst := by
  induction pairs with
  | nil => simp [lookup?]
  | cons p rest ih =>
    obtain ⟨l, b⟩ := p
    by_cases h : l = k
    · simp [lookup?, h]
    · rw [lookup?, if_neg h, ih, List.map_cons, List.mem_cons]
      exact ⟨.inr, fun h' => h'.resolve_left (Ne.symm h)⟩

variable {t : MemoryTree}

/-- The locations of a tree are those of its files, directories, links and special entries. -/
lemma mem_locations {l : Location} :
    l ∈ t.locations ↔ l ∈ t.files.map Prod.fst ∨ l ∈ t.directories ∨
      l ∈ t.links.map Prod.fst ∨ l ∈ t.specials := by
  simp only [locations, List.mem_append]
  tauto

/-- What is at a location is registered there. -/
lemma mem_locations_of_kindAt? {l : Location} {k : NodeKind} (h : t.kindAt? l = some k) :
    l ∈ t.files.map Prod.fst ∨ l ∈ t.directories ∨ l ∈ t.specials := by
  unfold kindAt? at h
  split at h
  · rename_i hf
    exact .inl ((lookup?_isSome l t.files).1 hf)
  · split at h
    · rename_i hd
      exact .inr (.inl (by simpa using hd))
    · split at h
      · rename_i hs
        exact .inr (.inr (by simpa using hs))
      · cases h

/-- What is a directory is registered as one. -/
lemma mem_directories_of_kindAt? {l : Location} (h : t.kindAt? l = some .directory) :
    l ∈ t.directories := by
  unfold kindAt? at h
  split at h
  · cases h
  · split at h
    · rename_i hmem
      simpa using hmem
    · split at h <;> cases h

namespace WellFormed

variable (h : t.WellFormed)
include h

/-- A directory is of no other kind. -/
lemma not_mem_of_directory {l : Location} (hd : l ∈ t.directories) :
    l ∉ t.files.map Prod.fst ∧ l ∉ t.links.map Prod.fst ∧ l ∉ t.specials := by
  have hnd := h.distinct
  simp only [locations, List.nodup_append, List.mem_append] at hnd
  obtain ⟨⟨⟨-, -, hfd⟩, -, hl⟩, -, hs⟩ := hnd
  exact ⟨fun hf => hfd l hf l hd rfl, fun hk => hl l (.inr hd) l hk rfl,
    fun hk => hs l (.inl (.inr hd)) l hk rfl⟩

/-- A link is of no other kind. -/
lemma not_mem_of_link {l : Location} (hl : l ∈ t.links.map Prod.fst) :
    l ∉ t.files.map Prod.fst ∧ l ∉ t.directories ∧ l ∉ t.specials := by
  have hnd := h.distinct
  simp only [locations, List.nodup_append, List.mem_append] at hnd
  obtain ⟨⟨-, -, hfl⟩, -, hs⟩ := hnd
  exact ⟨fun hf => hfl l (.inl hf) l hl rfl, fun hd => hfl l (.inr hd) l hl rfl,
    fun hk => hs l (.inr hl) l hk rfl⟩

/-- What is among the directories is a directory. -/
lemma kindAt?_of_directory {l : Location} (hd : l ∈ t.directories) :
    t.kindAt? l = some .directory := by
  have hf : ¬ (lookup? l t.files).isSome = true := fun hf =>
    (h.not_mem_of_directory hd).1 ((lookup?_isSome l t.files).1 hf)
  rw [kindAt?, if_neg hf, if_pos (by simpa using hd)]

/-- A link is nothing itself. -/
lemma kindAt?_of_link {l : Location} (hl : l ∈ t.links.map Prod.fst) : t.kindAt? l = none := by
  obtain ⟨hf, hd, hs⟩ := h.not_mem_of_link hl
  cases hk : t.kindAt? l with
  | none => rfl
  | some k =>
    rcases mem_locations_of_kindAt? hk with hm | hm | hm
    · exact absurd hm hf
    · exact absurd hm hd
    · exact absurd hm hs

/-- What contains a location is a directory. -/
lemma directory_of_below {names rest : List Text} (hrest : rest ≠ [])
    (hmem : Location.below (names ++ rest) ∈ t.locations) :
    Location.below names ∈ t.directories := by
  induction rest using List.reverseRecOn with
  | nil => exact absurd rfl hrest
  | append_singleton rest name ih =>
    have hparent := h.parent _ hmem (by simp [Location.below])
    have heq : (Location.below (names ++ (rest ++ [name]))).parent =
        Location.below (names ++ rest) := by
      simp [Location.below, Location.parent, ← List.append_assoc]
    rw [heq] at hparent
    by_cases hr : rest = []
    · subst hr
      simpa using hparent
    · exact ih hr (mem_locations.2 (.inr (.inl hparent)))

/-- Nothing is at or below a link. -/
lemma kindAt?_below_link {link rest : List Text}
    (hl : Location.below link ∈ t.links.map Prod.fst) :
    t.kindAt? (Location.below (link ++ rest)) = none := by
  by_cases hr : rest = []
  · subst hr
    simpa using h.kindAt?_of_link hl
  · cases hk : t.kindAt? (Location.below (link ++ rest)) with
    | none => rfl
    | some k =>
      have hmem : Location.below (link ++ rest) ∈ t.locations := by
        rw [mem_locations]
        rcases mem_locations_of_kindAt? hk with hm | hm | hm
        · exact .inl hm
        · exact .inr (.inl hm)
        · exact .inr (.inr (.inr hm))
      exact absurd (h.directory_of_below hr hmem) (h.not_mem_of_link hl).2.1

end WellFormed

/-! ### Registering paths -/

/-- A registration. -/
inductive Addition where
  | file (path content : Text)
  | directory (path : Text)
  | link (path target : Text)
  | special (path : Text)
  | unreadable (path : Text)
deriving DecidableEq, Repr

/-- Registers a path. -/
def register (t : MemoryTree) : Addition → MemoryTree
  | .file path content => t.addFile path content
  | .directory path => t.addDirectory path
  | .link path target => t.addLink path target
  | .special path => t.addSpecial path
  | .unreadable path => t.makeUnreadable path

/-- The tree that some registrations make. -/
def build (root : Text) (additions : List Addition) : MemoryTree :=
  additions.foldl register (empty root)

/-- Adding a member adds just that member. -/
lemma mem_addMember {l m : Location} {members : List Location} :
    l ∈ addMember m members ↔ l = m ∨ l ∈ members := by
  unfold addMember
  split
  · rename_i h
    have hm : m ∈ members := by simpa using h
    exact ⟨.inr, fun h' => h'.elim (fun e => e ▸ hm) id⟩
  · rw [List.mem_append, List.mem_singleton, or_comm]

/-- Setting a value adds its key. -/
lemma mem_keys_setValue {l m : Location} {value : Text} {pairs : List (Location × Text)} :
    l ∈ (setValue m value pairs).map Prod.fst ↔ l = m ∨ l ∈ pairs.map Prod.fst := by
  induction pairs with
  | nil => simp [setValue]
  | cons p rest ih =>
    obtain ⟨k, v⟩ := p
    by_cases hk : k = m
    · simp [setValue, hk]
    · rw [setValue, if_neg hk, List.map_cons, List.mem_cons, ih, List.map_cons, List.mem_cons]
      exact or_left_comm

/-- The lineage of a location is made of the first names of it. -/
lemma mem_lineage {l d : Location} :
    d ∈ lineage l ↔ ∃ n ≤ l.segments.length, d = ⟨l.anchor, l.segments.take n⟩ := by
  simp only [lineage, List.mem_map, List.mem_range, Nat.lt_succ_iff]
  exact exists_congr fun n => and_congr_right fun _ => eq_comm

/-- Making directories adds those on the way. -/
lemma mem_directories_makeDirectories {l d : Location} :
    d ∈ (t.makeDirectories l).directories ↔ d ∈ lineage l ∨ d ∈ t.directories := by
  suffices hfold : ∀ (ls ds : List Location),
      d ∈ ls.foldl (fun ds d => addMember d ds) ds ↔ d ∈ ls ∨ d ∈ ds from hfold _ _
  intro ls
  induction ls with
  | nil => simp
  | cons m ls ih =>
    intro ds
    rw [List.foldl_cons, ih, mem_addMember, List.mem_cons]
    tauto

/-- Locations of the lineage of a proper location are proper and lie in each other. -/
lemma lineage_spec {l d : Location} (hl : l.IsProper) (hd : d ∈ lineage l) :
    d.IsProper ∧ (d.segments ≠ [] → d.parent ∈ lineage l) := by
  obtain ⟨n, hn, rfl⟩ := mem_lineage.1 hd
  refine ⟨⟨hl.absolute, fun s hs => hl.names s (List.take_subset n _ hs)⟩, fun _ => ?_⟩
  refine mem_lineage.2 ⟨n - 1, by omega, ?_⟩
  rw [Location.parent, List.dropLast_eq_take, List.take_take, List.length_take]
  congr 2
  omega

/-- A location is in its lineage. -/
lemma self_mem_lineage (l : Location) : l ∈ lineage l :=
  mem_lineage.2 ⟨l.segments.length, le_rfl, by rw [List.take_length]⟩

/-- Making directories keeps a tree rooted. -/
lemma Rooted.makeDirectories (h : t.Rooted) {l : Location} (hl : l.IsProper) :
    (t.makeDirectories l).Rooted := by
  have hold : ∀ m ∈ (t.makeDirectories l).locations, m ∈ lineage l ∨ m ∈ t.locations := by
    intro m hm
    simp only [mem_locations] at hm ⊢
    rcases hm with hm | hm | hm
    · exact .inr (.inl hm)
    · rcases mem_directories_makeDirectories.1 hm with hm | hm
      · exact .inl hm
      · exact .inr (.inr (.inl hm))
    · exact .inr (.inr (.inr hm))
  refine ⟨h.root, fun m hm => ?_, fun m hm hne => ?_⟩
  · rcases hold m hm with hm | hm
    · exact (lineage_spec hl hm).1
    · exact h.proper m hm
  · rw [mem_directories_makeDirectories]
    rcases hold m hm with hm | hm
    · exact .inl ((lineage_spec hl hm).2 hne)
    · exact .inr (h.parent m hm hne)

/-- A location whose directory was made may be registered. -/
lemma Rooted.extend {t t' : MemoryTree} (h : t.Rooted) {l : Location} (hl : l.IsProper)
    (hroot : t'.root = t.root) (hdirs : t'.directories = (t.makeDirectories l.parent).directories)
    (hmem : ∀ m ∈ t'.locations, m = l ∨ m ∈ (t.makeDirectories l.parent).locations) :
    t'.Rooted := by
  have hmade := h.makeDirectories hl.parent
  refine ⟨hroot ▸ h.root, fun m hm => ?_, fun m hm hne => ?_⟩
  · rcases hmem m hm with rfl | hm
    · exact hl
    · exact hmade.proper m hm
  · rw [hdirs]
    rcases hmem m hm with rfl | hm
    · exact mem_directories_makeDirectories.2 (.inl (self_mem_lineage _))
    · exact hmade.parent m hm hne

/-- A path is read as a proper location. -/
lemma Rooted.locate_isProper (h : t.Rooted) (path : Text) : (t.locate path).IsProper := by
  unfold locate
  split
  · exact ofText_isProper ‹_›
  · rename_i hrel
    refine ofText_isProper ?_
    have hhead := h.root.head?_toText
    rw [joinSegment, if_neg hrel]
    cases ht : t.root.toText with
    | nil =>
      rw [ht] at hhead
      cases hhead
    | cons c rest =>
      rw [ht] at hhead
      split <;> simpa using hhead

/-- **A registration keeps a tree rooted.** -/
lemma Rooted.register (h : t.Rooted) (a : Addition) : (t.register a).Rooted := by
  cases a with
  | file path content =>
    refine h.extend (h.locate_isProper path) rfl rfl fun m hm => ?_
    simp only [mem_locations] at hm ⊢
    rcases hm with hm | hm
    · rcases mem_keys_setValue.1 hm with hm | hm
      · exact .inl hm
      · exact .inr (.inl hm)
    · exact .inr (.inr hm)
  | directory path => exact h.makeDirectories (h.locate_isProper path)
  | link path target =>
    refine h.extend (h.locate_isProper path) rfl rfl fun m hm => ?_
    simp only [mem_locations] at hm ⊢
    rcases hm with hm | hm | hm | hm
    · exact .inr (.inl hm)
    · exact .inr (.inr (.inl hm))
    · rcases mem_keys_setValue.1 hm with hm | hm
      · exact .inl hm
      · exact .inr (.inr (.inr (.inl hm)))
    · exact .inr (.inr (.inr (.inr hm)))
  | special path =>
    refine h.extend (h.locate_isProper path) rfl rfl fun m hm => ?_
    simp only [mem_locations] at hm ⊢
    rcases hm with hm | hm | hm | hm
    · exact .inr (.inl hm)
    · exact .inr (.inr (.inl hm))
    · exact .inr (.inr (.inr (.inl hm)))
    · rcases mem_addMember.1 hm with hm | hm
      · exact .inl hm
      · exact .inr (.inr (.inr (.inr hm)))
  | unreadable path =>
    have hmade := h.makeDirectories (h.locate_isProper path)
    exact ⟨hmade.root, hmade.proper, hmade.parent⟩

/-- The tree that has its root directory alone is rooted. -/
lemma rooted_empty {root : Text} (hroot : root.head? = some (.of '/')) : (empty root).Rooted := by
  have hproper := ofText_isProper hroot
  refine Rooted.makeDirectories ⟨hproper, fun l hl => ?_, fun l hl hne => ?_⟩ hproper
  · obtain rfl : l = .top := by simpa [mem_locations] using hl
    exact ⟨by simp [Location.top], areNames_nil⟩
  · obtain rfl : l = .top := by simpa [mem_locations] using hl
    exact absurd rfl hne

/-- **Registering paths makes a well-formed tree** if each is registered as one kind only. -/
theorem wellFormed_build {root : Text} (hroot : root.head? = some (.of '/'))
    (additions : List Addition) (hkinds : (build root additions).locations.Nodup) :
    (build root additions).WellFormed := by
  have hrooted : (build root additions).Rooted := by
    clear hkinds
    unfold build
    induction additions using List.reverseRecOn with
    | nil => exact rooted_empty hroot
    | append_singleton additions a ih =>
      rw [List.foldl_append]
      exact ih.register a
  exact ⟨hrooted, hkinds⟩

/-! ### Resolution -/

/-- Going through names, in front of others. -/
lemma pass_append (names rest : List Text) : ∀ current : List Text,
    t.pass current (names ++ rest) =
      match t.pass current names with
      | .arrived reached => t.pass reached rest
      | .atLink link directory target pending =>
        .atLink link directory target (pending ++ rest) := by
  induction names with
  | nil => exact fun current => rfl
  | cons name names ih =>
    intro current
    rw [List.cons_append, pass, pass]
    cases lookup? (Location.below
        (if name = [.of '.', .of '.'] then current.dropLast else current ++ [name])) t.links with
    | none => exact ih _
    | some target => rfl

/-- Names that are passed without a link are reached as they stand. -/
lemma pass_eq_arrived {names : List Text} (hn : AreNames names) :
    ∀ {current reached : List Text}, t.pass current names = .arrived reached →
      reached = current ++ names := by
  induction names with
  | nil =>
    intro current reached h
    cases h
    simp
  | cons name names ih =>
    intro current reached h
    rw [pass, if_neg (hn name List.mem_cons_self).ne_dots] at h
    split at h
    · rw [ih (fun x hx => hn x (List.mem_cons_of_mem _ hx)) h]
      simp
    · cases h

/-- A link that is met is registered, and stands on the way. -/
lemma pass_eq_atLink {names : List Text} (hn : AreNames names) :
    ∀ {current link directory pending : List Text} {target : Text},
      t.pass current names = .atLink link directory target pending →
      lookup? (Location.below link) t.links = some target ∧
        ∃ before name, names = before ++ name :: pending ∧ directory = current ++ before ∧
          link = directory ++ [name] := by
  induction names with
  | nil =>
    intro current link directory pending target h
    cases h
  | cons name names ih =>
    intro current link directory pending target h
    rw [pass, if_neg (hn name List.mem_cons_self).ne_dots] at h
    split at h
    · obtain ⟨hl, before, n, rfl, rfl, rfl⟩ := ih (fun x hx => hn x (List.mem_cons_of_mem _ hx)) h
      exact ⟨hl, name :: before, n, rfl, by simp, rfl⟩
    · rename_i hl
      cases h
      exact ⟨hl, [], name, rfl, by simp, rfl⟩

/-- The names that the target of a link leads to. -/
lemma targetNames_areNames {directory : List Text} (hd : AreNames directory) (target : Text) :
    AreNames (targetNames directory target) := by
  refine (ofText_isProper ?_).names
  have hhead := (isProper_below hd).head?_toText
  unfold joinSegment
  split
  · assumption
  · obtain ⟨c, rest, hrest⟩ : ∃ c rest, (Location.below directory).toText = c :: rest := by
      cases ht : (Location.below directory).toText with
      | nil => rw [ht] at hhead; cases hhead
      | cons c rest => exact ⟨c, rest, rfl⟩
    rw [hrest] at hhead ⊢
    split <;> simpa using hhead

variable (t) in
/-- Resolves names from the root: where they lead to, and how many of `links` links are left over.
There may be too many links. -/
def arrive? : (links : Nat) → List Text → Option (List Text × Nat)
  | 0, names =>
    match t.pass [] names with
    | .arrived real => some (real, 0)
    | .atLink .. => none
  | links + 1, names =>
    match t.pass [] names with
    | .arrived real => some (real, links + 1)
    | .atLink _ directory target pending =>
      arrive? links (targetNames directory target ++ pending)

/-- Names that are passed without a link use none up. -/
lemma arrive?_of_pass {links : Nat} {names real : List Text}
    (h : t.pass [] names = .arrived real) : t.arrive? links names = some (real, links) := by
  cases links <;> rw [arrive?, h]

/-- The names to go on with after a link are names. -/
lemma areNames_after_link {names link directory pending : List Text} {target : Text}
    (hn : AreNames names) (h : t.pass [] names = .atLink link directory target pending) :
    AreNames (targetNames directory target ++ pending) := by
  obtain ⟨-, before, name, rfl, rfl, -⟩ := pass_eq_atLink hn h
  refine (targetNames_areNames (by simpa using hn.left) target).append ?_
  exact fun x hx => hn.right x (List.mem_cons_of_mem _ hx)

/-- Names that are resolved lead to where the resolution says, past no further link. -/
lemma arrive?_eq_some : ∀ {links : Nat} {names real : List Text} {left : Nat}, AreNames names →
    t.arrive? links names = some (real, left) →
      AreNames real ∧ t.pass [] real = .arrived real ∧ left ≤ links ∧
        t.resolve links names = real := by
  intro links
  induction links with
  | zero =>
    intro names real left hn h
    rw [arrive?] at h
    rw [resolve]
    cases hp : t.pass [] names with
    | arrived reached =>
      rw [hp] at h
      cases h
      have heq := pass_eq_arrived hn hp
      rw [List.nil_append] at heq
      subst heq
      exact ⟨hn, hp, le_rfl, rfl⟩
    | atLink link directory target pending =>
      rw [hp] at h
      cases h
  | succ links ih =>
    intro names real left hn h
    rw [arrive?] at h
    rw [resolve]
    cases hp : t.pass [] names with
    | arrived reached =>
      rw [hp] at h
      cases h
      have heq := pass_eq_arrived hn hp
      rw [List.nil_append] at heq
      subst heq
      exact ⟨hn, hp, le_rfl, rfl⟩
    | atLink link directory target pending =>
      rw [hp] at h
      obtain ⟨hreal, hpass, hle, hres⟩ := ih (areNames_after_link hn hp) h
      exact ⟨hreal, hpass, by omega, hres⟩

/-- A resolution that meets too many links ends at a link or below one. -/
lemma arrive?_eq_none : ∀ {links : Nat} {names : List Text}, AreNames names →
    t.arrive? links names = none →
      ∃ link rest, Location.below link ∈ t.links.map Prod.fst ∧
        t.resolve links names = link ++ rest := by
  intro links
  induction links with
  | zero =>
    intro names hn h
    rw [arrive?] at h
    rw [resolve]
    cases hp : t.pass [] names with
    | arrived reached => rw [hp] at h; cases h
    | atLink link directory target pending =>
      obtain ⟨hl, -⟩ := pass_eq_atLink hn hp
      exact ⟨link, pending, (lookup?_isSome _ _).1 (by rw [hl]; rfl), rfl⟩
  | succ links ih =>
    intro names hn h
    rw [arrive?] at h
    rw [resolve]
    cases hp : t.pass [] names with
    | arrived reached => rw [hp] at h; cases h
    | atLink link directory target pending =>
      rw [hp] at h
      exact ih (areNames_after_link hn hp) h

/-- **A longer path is resolved by resolving its directory first**; the rest is resolved from there
with the links that are left over. -/
lemma arrive?_append : ∀ {links : Nat} {names : List Text} (rest : List Text), AreNames names →
    t.arrive? links (names ++ rest) =
      (t.arrive? links names).bind (fun r => t.arrive? r.2 (r.1 ++ rest)) := by
  intro links
  induction links with
  | zero =>
    intro names rest hn
    cases hp : t.pass [] names with
    | arrived reached =>
      have heq := pass_eq_arrived hn hp
      rw [List.nil_append] at heq
      subst heq
      simp [arrive?, hp]
    | atLink link directory target pending =>
      simp [arrive?, hp, pass_append]
  | succ links ih =>
    intro names rest hn
    cases hp : t.pass [] names with
    | arrived reached =>
      have heq := pass_eq_arrived hn hp
      rw [List.nil_append] at heq
      subst heq
      simp [arrive?, hp]
    | atLink link directory target pending =>
      have hafter := ih rest (areNames_after_link hn hp)
      rw [List.append_assoc] at hafter
      simpa [arrive?, hp, pass_append] using hafter

/-- More links do not lead elsewhere. -/
lemma arrive?_add (more : Nat) : ∀ {links : Nat} {names real : List Text} {left : Nat},
    AreNames names → t.arrive? links names = some (real, left) →
      t.arrive? (links + more) names = some (real, left + more) := by
  intro links
  induction links with
  | zero =>
    intro names real left hn h
    rw [arrive?] at h
    cases hp : t.pass [] names with
    | arrived reached =>
      rw [hp] at h
      cases h
      cases more with
      | zero => simp [arrive?, hp]
      | succ more => simp [arrive?, hp]
    | atLink link directory target pending => rw [hp] at h; cases h
  | succ links ih =>
    intro names real left hn h
    rw [arrive?] at h
    rw [show links + 1 + more = (links + more) + 1 by omega, arrive?]
    cases hp : t.pass [] names with
    | arrived reached =>
      rw [hp] at h
      cases h
      simp only [Option.some.injEq, Prod.mk.injEq, true_and]
      omega
    | atLink link directory target pending =>
      rw [hp] at h
      exact ih (areNames_after_link hn hp) h

/-! ### Answers -/

/-- What proper names from the root lead to. -/
lemma kindAt?_resolve (h : t.WellFormed) {links : Nat} {names : List Text} (hn : AreNames names) :
    t.kindAt? (Location.below (t.resolve links names)) =
      (t.arrive? links names).bind (fun r => t.kindAt? (Location.below r.1)) := by
  cases ha : t.arrive? links names with
  | none =>
    obtain ⟨link, rest, hl, hres⟩ := arrive?_eq_none hn ha
    rw [hres, h.kindAt?_below_link hl]
    rfl
  | some r =>
    rw [(arrive?_eq_some hn ha).2.2.2]
    rfl

/-- The location of the text of a proper location. -/
lemma locate_toText {l : Location} (hl : l.IsProper) : t.locate l.toText = l := by
  rw [locate, if_pos hl.head?_toText, hl.ofText_toText]

/-- The names from the root that stand for a proper location. -/
lemma realNames_toText {l : Location} (hl : l.IsProper) :
    t.realNames l.toText = t.resolve maxLinks l.segments := by
  have hnames : namesOf l = l.segments := by
    unfold namesOf
    split
    · rename_i ha
      exact absurd ha hl.absolute
    · rfl
  rw [realNames, locate_toText hl, hnames]

/-- Where a location leads to, if its resolution arrives. -/
lemma realNames_of_arrive? {l : Location} (hl : l.IsProper) {real : List Text} {left : Nat}
    (h : t.arrive? maxLinks l.segments = some (real, left)) : t.realNames l.toText = real := by
  rw [realNames_toText hl, (arrive?_eq_some hl.names h).2.2.2]

/-- What a path leads to is what is at the place where following the links arrives. -/
lemma kind?_toText (h : t.WellFormed) {l : Location} (hl : l.IsProper) :
    t.kind? l.toText =
      (t.arrive? maxLinks l.segments).bind (fun r => t.kindAt? (Location.below r.1)) := by
  rw [kind?, realLocation, realNames_toText hl, kindAt?_resolve h hl.names]

/-- **What a directory and one more name lead to**: the directory is reached, the name is registered
in it, and the entry of that name leads to the same. -/
lemma arrive?_of_kind? (h : t.WellFormed) {l : Location} (hl : l.IsProper) {name : Text}
    (hname : IsName name) {k : NodeKind}
    (hk : t.kind? (⟨l.anchor, l.segments ++ [name]⟩ : Location).toText = some k) :
    ∃ real left, t.arrive? maxLinks l.segments = some (real, left) ∧ AreNames real ∧
      Location.below real ∈ t.directories ∧
      Location.below (real ++ [name]) ∈ t.locations ∧
      t.kind? (Location.below (real ++ [name])).toText = some k := by
  rw [kind?_toText h (hl.further (areNames_singleton hname)), arrive?_append [name] hl.names] at hk
  cases ha : t.arrive? maxLinks l.segments with
  | none =>
    rw [ha] at hk
    cases hk
  | some r =>
    obtain ⟨real, left⟩ := r
    obtain ⟨hreal, hpass, hle, -⟩ := arrive?_eq_some hl.names ha
    have hfull : AreNames (real ++ [name]) := hreal.append (areNames_singleton hname)
    rw [ha] at hk
    cases hb : t.arrive? left (real ++ [name]) with
    | none =>
      simp only [Option.bind_some, hb] at hk
      cases hk
    | some b =>
      simp only [Option.bind_some, hb] at hk
      -- the name is registered: it is a link, or the resolution ends at it
      have hmem : Location.below (real ++ [name]) ∈ t.locations := by
        by_cases hlink : Location.below (real ++ [name]) ∈ t.links.map Prod.fst
        · exact mem_locations.2 (.inr (.inr (.inl hlink)))
        · have hpass' : t.pass [] (real ++ [name]) = .arrived (real ++ [name]) := by
            have hnone : lookup? (Location.below (real ++ [name])) t.links = none := by
              cases hlook : lookup? (Location.below (real ++ [name])) t.links with
              | none => rfl
              | some target =>
                exact absurd ((lookup?_isSome _ _).1 (by rw [hlook]; rfl)) hlink
            simp [pass_append, hpass, pass, hname.ne_dots, hnone]
          have hb' : b.1 = real ++ [name] := by
            rw [arrive?_of_pass hpass'] at hb
            cases hb
            rfl
          rw [hb'] at hk
          rw [mem_locations]
          rcases mem_locations_of_kindAt? hk with hm | hm | hm
          · exact .inl hm
          · exact .inr (.inl hm)
          · exact .inr (.inr (.inr hm))
      have hdir : Location.below real ∈ t.directories := by
        have hparent := h.parent _ hmem (by simp [Location.below])
        simpa [Location.below, Location.parent] using hparent
      refine ⟨real, left, rfl, hreal, hdir, hmem, ?_⟩
      rw [kind?_toText h (isProper_below hfull)]
      have hmore := arrive?_add (maxLinks - left) hfull hb
      rw [show left + (maxLinks - left) = maxLinks by omega] at hmore
      change (t.arrive? maxLinks (real ++ [name])).bind _ = _
      rw [hmore]
      exact hk

/-- What is listed is a directory. -/
lemma mem_directories_of_list {l : Location} (hl : l.IsProper) {entries : List Entry}
    (hlist : t.list l.toText = .ok entries) :
    Location.below (t.realNames l.toText) ∈ t.directories := by
  unfold list at hlist
  simp only [locate_toText hl] at hlist
  split at hlist
  · cases hlist
  · split at hlist
    · rename_i hd
      simpa [realLocation] using hd
    · split at hlist <;> cases hlist

/-- What is listed of a proper location: the names registered where it leads to. -/
lemma list_eq_ok (h : t.WellFormed) {l : Location} (hl : l.IsProper) {entries : List Entry}
    (hlist : t.list l.toText = .ok entries) :
    ∃ real, AreNames real ∧ t.realNames l.toText = real ∧
      (∀ r, t.arrive? maxLinks l.segments = some r → r.1 = real) ∧
      entries = (t.childNames (Location.below real)).map (t.entry l (Location.below real)) := by
  have hdir := mem_directories_of_list hl hlist
  refine ⟨t.realNames l.toText, (h.proper _ (mem_locations.2 (.inr (.inl hdir)))).names, rfl,
    fun r hr => (realNames_of_arrive? hl hr).symm, ?_⟩
  unfold list at hlist
  simp only [locate_toText hl] at hlist
  split at hlist
  · cases hlist
  · split at hlist
    · cases hlist
      rfl
    · split at hlist <;> cases hlist

/-- The names in a directory are those under which something is located there. -/
lemma mem_childNames {directory : Location} {name : Text} :
    name ∈ t.childNames directory ↔
      (⟨directory.anchor, directory.segments ++ [name]⟩ : Location) ∈ t.locations := by
  simp only [childNames, Text.mem_sort, mem_dedupe, List.mem_filterMap]
  constructor
  · rintro ⟨l, hl, hchild⟩
    unfold childName? at hchild
    split at hchild
    · rename_i heq
      obtain ⟨front, hfront⟩ := List.getLast?_eq_some_iff.1 hchild
      have hl' : l = ⟨directory.anchor, directory.segments ++ [name]⟩ := by
        obtain ⟨anchor, segments⟩ := l
        obtain ⟨ha, hd⟩ := heq
        simp only at ha hd hfront
        rw [hfront, List.dropLast_concat] at hd
        rw [ha, hfront, hd]
      exact hl' ▸ hl
    · cases hchild
  · intro hl
    exact ⟨_, hl, by simp [childName?]⟩

/-- **A listed entry** is what is registered under its name where the directory really is. -/
lemma listed_eq (h : t.WellFormed) {l : Location} (hl : l.IsProper) {entries : List Entry}
    (hlist : t.list l.toText = .ok entries) {e : Entry} (he : e ∈ entries) :
    AreNames (t.realNames l.toText ++ [e.name]) ∧
      e.isLink = t.isLink (Location.below (t.realNames l.toText ++ [e.name])) ∧
      e.kind =
        (t.kind? (Location.below (t.realNames l.toText ++ [e.name])).toText).getD .other := by
  obtain ⟨real, hreal, rfl, -, rfl⟩ := list_eq_ok h hl hlist
  obtain ⟨name, hmem, rfl⟩ := List.mem_map.1 he
  have hname : IsName name := (h.proper _ (mem_childNames.1 hmem)).names name (by simp)
  refine ⟨hreal.append (areNames_singleton hname), rfl, ?_⟩
  simp only [entry, (isProper_below hreal).joinSegment_toText hname]
  rfl

/-- **A well-formed tree answers coherently** below every absolute path. -/
theorem isProject (h : t.WellFormed) {l : Location} (hl : l.IsProper) :
    t.fileSystem.IsProject l.toText where
  isName := by
    intro names entries e hn hlist he
    rw [hl.inside hn] at hlist
    have hl' := hl.further hn
    obtain ⟨real, -, -, -, rfl⟩ := list_eq_ok h hl' hlist
    obtain ⟨name, hname, rfl⟩ := List.mem_map.1 he
    exact (h.proper _ (mem_childNames.1 hname)).names name (by simp [Location.below])
  path_eq := by
    intro names entries e hn hlist he
    rw [hl.inside hn] at hlist
    have hl' := hl.further hn
    obtain ⟨real, -, -, -, rfl⟩ := list_eq_ok h hl' hlist
    obtain ⟨name, hname, rfl⟩ := List.mem_map.1 he
    rw [inside_concat, hl.inside hn]
    rfl
  nodup := by
    intro names entries hn hlist
    rw [hl.inside hn] at hlist
    have hl' := hl.further hn
    obtain ⟨real, -, -, -, rfl⟩ := list_eq_ok h hl' hlist
    have hnames : ((t.childNames (Location.below real)).map
        (t.entry ⟨l.anchor, l.segments ++ names⟩ (Location.below real))).map Entry.name =
          t.childNames (Location.below real) := by
      rw [List.map_map]
      exact List.map_id' _
    rw [hnames]
    exact Text.nodup_sort.2 (nodup_dedupe _)
  listed := by
    intro names name kind entries hn hname hk hlist
    rw [hl.inside hn] at hlist
    have hl' := hl.further hn
    have hk' : t.kind? (⟨l.anchor, (l.segments ++ names) ++ [name]⟩ : Location).toText =
        some kind := by
      rw [List.append_assoc, ← hl.inside (hn.append (areNames_singleton hname))]
      exact hk
    obtain ⟨real, left, harr, hreal, -, hmem, hkind⟩ := arrive?_of_kind? h hl' hname hk'
    obtain ⟨real', -, -, heq, rfl⟩ := list_eq_ok h hl' hlist
    have hrr : real = real' := heq _ harr
    subst hrr
    refine ⟨t.entry ⟨l.anchor, l.segments ++ names⟩ (Location.below real) name,
      List.mem_map.2 ⟨name, mem_childNames.2 hmem, rfl⟩, rfl, ?_⟩
    have hjoin := (isProper_below hreal).joinSegment_toText hname
    simp only [entry, hjoin]
    change (t.kind? (Location.below (real ++ [name])).toText).getD .other = kind
    rw [hkind]
    rfl
  parent_directory := by
    intro names name hn hname hsome
    have hl' := hl.further hn
    obtain ⟨k, hk⟩ := Option.isSome_iff_exists.1 hsome
    have hk' : t.kind? (⟨l.anchor, (l.segments ++ names) ++ [name]⟩ : Location).toText =
        some k := by
      rw [List.append_assoc, ← hl.inside (hn.append (areNames_singleton hname))]
      exact hk
    obtain ⟨real, left, harr, -, hdir, -, -⟩ := arrive?_of_kind? h hl' hname hk'
    change t.kind? (Path.inside l.toText names) = some .directory
    rw [hl.inside hn, kind?_toText h hl', harr]
    exact h.kindAt?_of_directory hdir
  slash_mem := by
    change (.of '/') ∈ (Location.below (t.realNames l.toText)).toText
    simp [Location.toText, Location.below, anchorText]

end GlobPreset.MemoryTree
