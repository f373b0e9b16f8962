import GlobPreset.Proofs.Path.Ordinary
import GlobPreset.Proofs.Text.Order
import GlobPreset.Selection.Normalize
import GlobPreset.Selection.Tree

/-!
# The tree of a selection

Paths of which none leads to another form a tree: none of them is ever refused, and the directories
of the tree are what leads to one of them.

## Main definitions

* `SelectionTree.IsPrefixFree` — no path of a list leads to another.
* `SelectionTree.IsWithin` — the nodes of a tree are those of the paths of a list.
* `SelectionTree.Leads` — names lead to a directory of a tree.

## Main results

* `SelectionTree.ofPaths_eq_ok` — the paths of a list form a tree.
* `SelectionTree.mem_deepestFirst` — a directory of the tree leads to a path.
* `SelectionTree.mem_deepestFirst_of_mem` — what leads to a path is a directory of the tree.
* `Selection.normalize_eq_ok` — ordinary paths are their own normal forms.
-/

set_option autoImplicit false

namespace GlobPreset

open GlobPreset.Path

/-- A plain path has no empty segments. -/
lemma Path.IsPlain.names_eq {path : Text} (h : IsPlain path) : names path = segments path :=
  names_eq_segments fun s hs => (h s hs).ne_nil

namespace SelectionTree

/-- No path of a list leads to another one. -/
def IsPrefixFree (paths : List (List Text)) : Prop :=
  ∀ l ∈ paths, ∀ rest, rest ≠ [] → l ++ rest ∉ paths

instance (paths : List (List Text)) : Decidable (IsPrefixFree paths) :=
  decidable_of_iff (∀ l ∈ paths, ∀ m ∈ paths, l <+: m → l = m) <| by
    constructor
    · intro h l hl rest hrest hm
      exact hrest (List.self_eq_append_right.1 (h l hl _ hm (List.prefix_append l rest)))
    · rintro h l hl _ hm ⟨rest, rfl⟩
      by_contra hne
      exact h l hl rest (fun hnil => hne (by rw [hnil, List.append_nil])) hm

/-- The nodes of a tree below `above` are those of some paths: a file is one of them, and a
directory leads to one. -/
def IsWithin (paths : List (List Text)) : (above : List Text) → SelectionTree → Prop
  | _, empty => True
  | above, directory name children others =>
    (∃ rest, rest ≠ [] ∧ above ++ name :: rest ∈ paths) ∧
      IsWithin paths (above ++ [name]) children ∧ IsWithin paths above others
  | above, file name others => above ++ [name] ∈ paths ∧ IsWithin paths above others

variable {paths : List (List Text)} {above : List Text} {name : Text}

/-! ### Additions -/

/-- A file of the tree is one of the paths. -/
lemma IsWithin.mem_of_hasFile {tree : SelectionTree} (h : tree.IsWithin paths above)
    (hfile : tree.hasFile name = true) : above ++ [name] ∈ paths := by
  induction tree with
  | empty => cases hfile
  | directory n children others _ ih => exact ih h.2.2 hfile
  | file n others ih =>
    rw [hasFile, Bool.or_eq_true] at hfile
    rcases hfile with hname | hfile
    · have hname : n = name := by simpa using hname
      exact hname ▸ h.1
    · exact ih h.2 hfile

/-- The children of a directory are those of the paths that it leads to. -/
lemma IsWithin.of_childrenOf? {tree children : SelectionTree} (h : tree.IsWithin paths above)
    (hchildren : tree.childrenOf? name = some children) :
    (∃ rest, rest ≠ [] ∧ above ++ name :: rest ∈ paths) ∧
      children.IsWithin paths (above ++ [name]) := by
  induction tree with
  | empty => cases hchildren
  | directory n inner others _ ih =>
    rw [childrenOf?] at hchildren
    split at hchildren
    · rename_i hname
      subst hname
      cases hchildren
      exact ⟨h.1, h.2.1⟩
    · exact ih h.2.2 hchildren
  | file n others ih => exact ih h.2 hchildren

/-- A new file of one of the paths keeps the tree within them. -/
lemma IsWithin.putFile {tree : SelectionTree} (h : tree.IsWithin paths above)
    (hname : above ++ [name] ∈ paths) : (tree.putFile name).IsWithin paths above := by
  induction tree with
  | empty => exact ⟨hname, h⟩
  | directory n children others _ ih => exact ⟨h.1, h.2.1, ih h.2.2⟩
  | file n others ih =>
    unfold SelectionTree.putFile
    split
    · exact h
    · split
      · exact ⟨hname, h⟩
      · exact ⟨h.1, ih h.2⟩

/-- A directory on the way to one of the paths keeps the tree within them. -/
lemma IsWithin.putDirectory {tree children : SelectionTree} (h : tree.IsWithin paths above)
    (hname : ∃ rest, rest ≠ [] ∧ above ++ name :: rest ∈ paths)
    (hchildren : children.IsWithin paths (above ++ [name])) :
    (SelectionTree.putDirectory name children tree).IsWithin paths above := by
  induction tree with
  | empty => exact ⟨hname, hchildren, h⟩
  | file n others _ => exact ⟨hname, hchildren, h⟩
  | directory n inner others _ ih =>
    unfold SelectionTree.putDirectory
    split
    · exact ⟨hname, hchildren, h.2.2⟩
    · split
      · exact ⟨hname, hchildren, h⟩
      · exact ⟨h.1, h.2.1, ih h.2.2⟩

/-- **A path of the list is never refused.** -/
lemma insertNames_eq_ok (hfree : IsPrefixFree paths) {names : List Text} :
    ∀ {above : List Text} {tree : SelectionTree}, above ++ names ∈ paths →
      tree.IsWithin paths above →
      ∃ tree', insertNames names tree = .ok tree' ∧ tree'.IsWithin paths above := by
  induction names with
  | nil => exact fun _ h => ⟨_, rfl, h⟩
  | cons name names ih =>
    intro above tree hmem h
    cases names with
    | nil =>
      have hnone : tree.childrenOf? name = none := by
        cases hsome : tree.childrenOf? name with
        | none => rfl
        | some children =>
          obtain ⟨⟨rest, hrest, hlong⟩, -⟩ := h.of_childrenOf? hsome
          exact absurd (List.append_cons above name rest ▸ hlong) (hfree _ hmem rest hrest)
      refine ⟨tree.putFile name, ?_, h.putFile hmem⟩
      rw [insertNames, hnone]
    | cons next names =>
      have hnofile : tree.hasFile name = false := by
        rw [Bool.eq_false_iff]
        intro hfile
        have hshort := h.mem_of_hasFile hfile
        rw [List.append_cons] at hmem
        exact hfree _ hshort _ (List.cons_ne_nil _ _) hmem
      have hinner : ((tree.childrenOf? name).getD empty).IsWithin paths (above ++ [name]) := by
        cases hsome : tree.childrenOf? name with
        | none => trivial
        | some children => exact (h.of_childrenOf? hsome).2
      have hnext : (above ++ [name]) ++ next :: names ∈ paths := by rwa [← List.append_cons]
      obtain ⟨children, hok, hchildren⟩ := ih hnext hinner
      refine ⟨putDirectory name children tree, ?_,
        h.putDirectory ⟨next :: names, List.cons_ne_nil _ _, hmem⟩ hchildren⟩
      rw [insertNames, hnofile, if_neg (by simp), hok]
      rfl

/-- **The paths of a list form a tree**, if none of them leads to another. -/
theorem ofPaths_eq_ok {list : List Text} (hplain : ∀ p ∈ list, IsPlain p)
    (hfree : IsPrefixFree (list.map segments)) :
    ∃ tree, ofPaths list = .ok tree ∧ tree.IsWithin (list.map segments) [] := by
  -- the list that is added may be shorter than the one that the tree keeps within
  have key : ∀ (rest : List Text) {tree : SelectionTree}, (∀ p ∈ rest, p ∈ list) →
      tree.IsWithin (list.map segments) [] →
      ∃ tree', rest.foldlM SelectionTree.insert tree = .ok tree' ∧
        tree'.IsWithin (list.map segments) [] := by
    intro rest
    induction rest with
    | nil => exact fun _ h => ⟨_, rfl, h⟩
    | cons p rest ih =>
      intro tree hsub h
      have hp := hsub p List.mem_cons_self
      have hmem : [] ++ segments p ∈ list.map segments := List.mem_map_of_mem hp
      obtain ⟨next, hok, hnext⟩ := insertNames_eq_ok hfree hmem h
      obtain ⟨last, hrest, hlast⟩ := ih (fun q hq => hsub q (List.mem_cons_of_mem _ hq)) hnext
      refine ⟨last, ?_, hlast⟩
      rw [List.foldlM_cons, SelectionTree.insert, (hplain p hp).names_eq,
        show insertNames (segments p) tree = .ok next from hok]
      exact hrest
  exact key list (fun _ hp => hp) trivial

/-! ### Directories -/

/-- A directory of the tree is on the way to one of the paths. -/
lemma IsWithin.mem_nodesBelow (hnames : ∀ l ∈ paths, AreNames l) {tree : SelectionTree} :
    ∀ {above : List Text}, AreNames above → tree.IsWithin paths above →
      ∀ n ∈ nodesBelow (ofSegments above) tree, n.isFile = false →
      ∃ l rest, l ≠ [] ∧ rest ≠ [] ∧ n.path = ofSegments l ∧ l ++ rest ∈ paths := by
  induction tree with
  | empty => exact fun _ _ n hn => absurd hn List.not_mem_nil
  | directory name children others ihchildren ihothers =>
    intro above habove h n hn hdir
    obtain ⟨⟨rest, hrest, hmem⟩, hchildren, hothers⟩ := h
    have hsplit : above ++ [name] ++ rest ∈ paths := by rwa [← List.append_cons]
    rw [nodesBelow, join_ofSegments habove] at hn
    rcases List.mem_cons.1 hn with rfl | hn
    · exact ⟨above ++ [name], rest, by simp, hrest, rfl, hsplit⟩
    · rcases List.mem_append.1 hn with hn | hn
      · exact ihchildren (hnames _ hsplit).left hchildren n hn hdir
      · exact ihothers habove hothers n hn hdir
  | file name others ih =>
    intro above habove h n hn hdir
    rw [nodesBelow] at hn
    rcases List.mem_cons.1 hn with rfl | hn
    · cases hdir
    · exact ih habove h.2 n hn hdir

/-- **A directory of the tree leads to a path.** -/
theorem mem_deepestFirst {list : List Text} (hplain : ∀ p ∈ list, IsPlain p)
    {tree : SelectionTree} (h : tree.IsWithin (list.map segments) []) {d : Text}
    (hd : d ∈ tree.deepestFirst) :
    ∃ l rest, l ≠ [] ∧ rest ≠ [] ∧ d = ofSegments l ∧ ofSegments (l ++ rest) ∈ list ∧
      AreNames (l ++ rest) := by
  rw [deepestFirst, mem_sortBy, directories, List.mem_map] at hd
  obtain ⟨n, hn, rfl⟩ := hd
  obtain ⟨hn, hdir⟩ := List.mem_filter.1 hn
  have hnames : ∀ l ∈ list.map segments, AreNames l := by
    intro l hl
    obtain ⟨p, hp, rfl⟩ := List.mem_map.1 hl
    exact hplain p hp
  obtain ⟨l, rest, hl, hrest, hpath, hmem⟩ :=
    h.mem_nodesBelow hnames areNames_nil n hn (by simpa using hdir)
  obtain ⟨p, hp, hsegs⟩ := List.mem_map.1 hmem
  refine ⟨l, rest, hl, hrest, hpath, ?_, hnames _ hmem⟩
  rw [← hsegs, ofSegments_segments]
  exact hp

/-! ### What is in the tree -/

/-- Putting a directory in changes what is below its name alone. -/
lemma childrenOf?_putDirectory (name other : Text) (children tree : SelectionTree) :
    (SelectionTree.putDirectory name children tree).childrenOf? other =
      if name = other then some children else tree.childrenOf? other := by
  induction tree with
  | empty => rfl
  | file n others _ => rfl
  | directory n inner others _ ih =>
    unfold SelectionTree.putDirectory
    split
    · rename_i hname
      subst hname
      simp only [childrenOf?]
      split <;> rfl
    · rename_i hname
      split
      · rfl
      · simp only [childrenOf?, ih]
        by_cases hn : n = other
        · rw [if_pos hn, if_pos hn, if_neg fun h => hname (hn.trans h.symm)]
        · rw [if_neg hn, if_neg hn]

/-- Putting a file in changes what is below no name. -/
lemma childrenOf?_putFile (name other : Text) (tree : SelectionTree) :
    (tree.putFile name).childrenOf? other = tree.childrenOf? other := by
  induction tree with
  | empty => rfl
  | directory n children others _ ih => simp only [SelectionTree.putFile, childrenOf?, ih]
  | file n others ih =>
    unfold SelectionTree.putFile
    split
    · rfl
    · split
      · rfl
      · exact ih

/-- Names lead to a directory of a tree. -/
def Leads : List Text → SelectionTree → Prop
  | [], _ => True
  | name :: names, tree => ∃ children, tree.childrenOf? name = some children ∧ Leads names children

/-- **An addition keeps the directories of a tree**, and what leads to the file is one from then
on. -/
lemma leads_of_insertNames {names : List Text} :
    ∀ {tree tree' : SelectionTree}, insertNames names tree = .ok tree' →
      (∀ l, Leads l tree → Leads l tree') ∧
        ∀ l rest, rest ≠ [] → names = l ++ rest → Leads l tree' := by
  induction names with
  | nil =>
    intro tree tree' h
    cases h
    refine ⟨fun _ hl => hl, fun l rest hrest hnames => ?_⟩
    exact absurd (List.append_eq_nil_iff.1 hnames.symm).2 hrest
  | cons name names ih =>
    intro tree tree' h
    cases names with
    | nil =>
      unfold insertNames at h
      split at h
      · cases h
      · cases h
        refine ⟨fun l hl => ?_, fun l rest hrest hnames => ?_⟩
        · cases l with
          | nil => trivial
          | cons n l => simpa only [Leads, childrenOf?_putFile] using hl
        · rcases List.append_eq_singleton_iff.1 hnames.symm with ⟨rfl, -⟩ | ⟨-, rfl⟩
          · trivial
          · exact absurd rfl hrest
    | cons next names =>
      unfold insertNames at h
      split at h
      · cases h
      cases hinner : insertNames (next :: names) ((tree.childrenOf? name).getD empty) with
      | error blocking => simp [hinner, bind, Except.bind] at h
      | ok children =>
        simp only [hinner, bind, Except.bind, pure, Except.pure, Except.ok.injEq] at h
        subst h
        obtain ⟨hkeep, hnew⟩ := ih hinner
        refine ⟨fun l hl => ?_, fun l rest hrest hnames => ?_⟩
        · cases l with
          | nil => trivial
          | cons n l =>
            obtain ⟨inner, hn, hl⟩ := hl
            simp only [Leads, childrenOf?_putDirectory]
            by_cases hname : name = n
            · subst hname
              rw [hn] at hkeep
              exact ⟨children, if_pos rfl, hkeep l hl⟩
            · exact ⟨inner, by rw [if_neg hname, hn], hl⟩
        · cases l with
          | nil => trivial
          | cons n l =>
            obtain ⟨rfl, htail⟩ := List.cons.inj hnames
            simp only [Leads, childrenOf?_putDirectory, if_true]
            exact ⟨children, rfl, hnew l rest hrest htail⟩

/-- The children of a directory are nodes of the tree, and so are theirs. -/
lemma nodesBelow_of_childrenOf? {name : Text} {tree children : SelectionTree} (above : Text)
    (h : tree.childrenOf? name = some children) :
    ⟨join above name, false⟩ ∈ nodesBelow above tree ∧
      ∀ n ∈ nodesBelow (join above name) children, n ∈ nodesBelow above tree := by
  induction tree with
  | empty => cases h
  | file n others ih =>
    obtain ⟨hself, hinner⟩ := ih h
    exact ⟨List.mem_cons_of_mem _ hself, fun m hm => List.mem_cons_of_mem _ (hinner m hm)⟩
  | directory n inner others _ ih =>
    rw [childrenOf?] at h
    split at h
    · rename_i hname
      subst hname
      cases h
      exact ⟨List.mem_cons_self,
        fun m hm => List.mem_cons_of_mem _ (List.mem_append_left _ hm)⟩
    · obtain ⟨hself, hothers⟩ := ih h
      exact ⟨List.mem_cons_of_mem _ (List.mem_append_right _ hself),
        fun m hm => List.mem_cons_of_mem _ (List.mem_append_right _ (hothers m hm))⟩

/-- A directory that names lead to is listed. -/
lemma Leads.mem_nodesBelow {l : List Text} :
    ∀ {above : List Text} {tree : SelectionTree}, l ≠ [] → AreNames (above ++ l) →
      Leads l tree → ⟨ofSegments (above ++ l), false⟩ ∈ nodesBelow (ofSegments above) tree := by
  induction l with
  | nil => exact fun h => absurd rfl h
  | cons name l ih =>
    rintro above tree - hn ⟨children, hchildren, hl⟩
    obtain ⟨hself, hinner⟩ := nodesBelow_of_childrenOf? (ofSegments above) hchildren
    rw [join_ofSegments hn.left] at hself hinner
    rw [List.append_cons] at hn ⊢
    by_cases hnil : l = []
    · rwa [hnil, List.append_nil]
    · exact hinner _ (ih hnil hn hl)

/-- **What leads to a path is a directory of the tree.** -/
theorem mem_deepestFirst_of_mem {list : List Text} (hplain : ∀ p ∈ list, IsPlain p)
    {tree : SelectionTree} (h : ofPaths list = .ok tree) {l rest : List Text} (hl : l ≠ [])
    (hrest : rest ≠ []) (hn : AreNames (l ++ rest)) (hmem : ofSegments (l ++ rest) ∈ list) :
    ofSegments l ∈ tree.deepestFirst := by
  -- what is added stays, and so do the directories on the way to it
  have key : ∀ (paths : List Text) {first last : SelectionTree}, (∀ p ∈ paths, IsPlain p) →
      paths.foldlM SelectionTree.insert first = .ok last →
      (∀ m, Leads m first → Leads m last) ∧
        (ofSegments (l ++ rest) ∈ paths → Leads l last) := by
    intro paths
    induction paths with
    | nil =>
      intro first last _ h
      cases h
      exact ⟨fun _ hm => hm, fun hmem => absurd hmem List.not_mem_nil⟩
    | cons p paths ih =>
      intro first last hplain h
      rw [List.foldlM_cons, SelectionTree.insert, (hplain p List.mem_cons_self).names_eq] at h
      cases hok : insertNames (segments p) first with
      | error blocking => simp [hok, bind, Except.bind] at h
      | ok next =>
        simp only [hok, bind, Except.bind] at h
        obtain ⟨hkeep, hnew⟩ := leads_of_insertNames hok
        obtain ⟨hkeep', hnew'⟩ := ih (fun q hq => hplain q (List.mem_cons_of_mem _ hq)) h
        refine ⟨fun m hm => hkeep' m (hkeep m hm), fun hmem => ?_⟩
        rcases List.mem_cons.1 hmem with rfl | hmem
        · refine hkeep' l (hnew l rest hrest ?_)
          exact segments_ofSegments (List.append_ne_nil_of_left_ne_nil hl rest) hn
        · exact hnew' hmem
  have hnode : ⟨ofSegments l, false⟩ ∈ nodesBelow (ofSegments []) tree :=
    ((key list hplain h).2 hmem).mem_nodesBelow hl hn.left
  rw [deepestFirst, mem_sortBy, directories, List.mem_map]
  exact ⟨_, List.mem_filter.2 ⟨hnode, rfl⟩, rfl⟩

end SelectionTree

/-! ### Normal forms -/

namespace Selection

open Text

/-- Squeezing slashes leaves any other character in front. -/
lemma squeezeSlashes_cons_of_ne {c : CodePoint} (hc : c ≠ .of '/') (t : Text) :
    squeezeSlashes (c :: t) = c :: squeezeSlashes t := by
  simp [squeezeSlashes, hc]

/-- Names without slashes in between are not squeezed. -/
lemma squeezeSlashes_ofSegments {names : List Text} (hn : AreNames names) :
    squeezeSlashes (ofSegments names) = ofSegments names := by
  have happend : ∀ {s : Text} (t : Text), .of '/' ∉ s →
      squeezeSlashes (s ++ t) = s ++ squeezeSlashes t := by
    intro s t hs
    induction s with
    | nil => rfl
    | cons c s ih =>
      have hc : c ≠ .of '/' := fun e => hs (e ▸ List.mem_cons_self)
      rw [List.cons_append, squeezeSlashes_cons_of_ne hc,
        ih fun hmem => hs (List.mem_cons_of_mem _ hmem), List.cons_append]
  induction names with
  | nil => rfl
  | cons s rest ih =>
    have hs := (hn s List.mem_cons_self).noSlash
    have hrest : AreNames rest := fun x hx => hn x (List.mem_cons_of_mem _ hx)
    by_cases hnil : rest = []
    · subst hnil
      rw [ofSegments_singleton]
      have hself := happend [] hs
      rwa [List.append_nil, show squeezeSlashes [] = [] from rfl, List.append_nil] at hself
    · rw [ofSegments_cons s hnil, happend _ hs]
      have hslash : squeezeSlashes (.of '/' :: ofSegments rest) =
          .of '/' :: squeezeSlashes (ofSegments rest) := by
        simp [squeezeSlashes, head?_ofSegments_ne hrest]
      rw [hslash, ih hrest]

/-- A name in front keeps a path from starting with `./`. -/
lemma dropDotSlash_ofSegments {names : List Text} (hn : AreNames names) :
    dropDotSlash (ofSegments names) = ofSegments names := by
  unfold dropDotSlash
  split
  · rename_i rest heq
    have hsegs : segments (ofSegments names) = [.of '.'] :: segments rest := by
      rw [heq]
      exact segments_append_slash [.of '.'] rest
    by_cases hnil : names = []
    · subst hnil
      cases heq
    · rw [segments_ofSegments hnil hn] at hsegs
      exact absurd rfl (hn [.of '.'] (hsegs ▸ List.mem_cons_self)).ne_dot
  · rfl

/-- A tame path is its own normal form. -/
lemma normalPath_eq_self {path : Text} (h : IsTame path) : normalPath path = path := by
  have hnames := h.areNames
  rw [normalPath, toSlashes_eq_self h.noBackslash, ← ofSegments_segments path,
    dropDotSlash_ofSegments hnames, dropEndSlashes, dropEndWhile_eq_self,
    squeezeSlashes_ofSegments hnames]
  intro c hc
  have hne := getLast?_ofSegments_ne (segments_ne_nil path) hnames
  rw [Option.mem_def] at hc
  rw [hc] at hne
  simpa using hne

/-- A path with a tame normal form names something. -/
lemma normalPath?_eq_some {path : Text} (h : IsTame (normalPath path)) :
    normalPath? path = some (normalPath path) := by
  unfold normalPath?
  refine if_neg ?_
  rintro (hnil | hdot)
  · exact h.ne_nil hnil
  · rw [hdot] at h
    exact absurd rfl (h.areNames [.of '.'] List.mem_cons_self).ne_dot

/-- **Safe paths with tame normal forms** are sorted by these, and repetitions are left out. -/
theorem normalize_of_isTame {paths : List Text}
    (h : ∀ p ∈ paths, Path.checkSafe role p = .ok () ∧ IsTame (normalPath p)) :
    normalize paths = .ok (sort (dedupe (paths.map normalPath))) := by
  have hcheck : paths.forM (Path.checkSafe role) = .ok () := by
    induction paths with
    | nil => rfl
    | cons p rest ih =>
      change (Path.checkSafe role p >>= fun _ => rest.forM (Path.checkSafe role)) = .ok ()
      rw [(h p List.mem_cons_self).1]
      exact ih fun q hq => h q (List.mem_cons_of_mem _ hq)
  have hnormal : paths.filterMap normalPath? = paths.map normalPath := by
    rw [List.filterMap_congr fun p hp => normalPath?_eq_some (h p hp).2]
    rw [List.filterMap_eq_map']
  rw [normalize, hcheck, hnormal]
  rfl

/-- **Tame paths are their own normal forms**: a selection of them is sorted, and its repetitions
are left out. -/
theorem normalize_eq_ok {paths : List Text} (h : ∀ p ∈ paths, IsTame p) :
    normalize paths = .ok (sort (dedupe paths)) := by
  have hself : paths.map normalPath = paths :=
    (List.map_congr_left fun p hp => normalPath_eq_self (h p hp)).trans (List.map_id' paths)
  rw [normalize_of_isTame fun p hp => ?_, hself]
  rw [normalPath_eq_self (h p hp)]
  refine ⟨?_, h p hp⟩
  unfold Path.checkSafe
  rw [(h p hp).safe]

end Selection

end GlobPreset
