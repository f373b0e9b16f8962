import GlobPreset.Proofs.FileSystem.Answers
import GlobPreset.Proofs.FileSystem.Disk

/-!
# What stands in files does not matter

Two disks with the same entries, but for what stands in files, answer every question alike but that
for the content of a file. Writing to a file that is there leaves such a disk.

## Main definitions

* `Disk.SameEntries` — two disks have the same entries, but for the content of files.

## Main results

* `Disk.SameEntries.locate_eq`, `Disk.SameEntries.find_eq` — paths lead to the same.
* `Disk.SameEntries.sameAnswers` — **the answers are the same**.
* `Disk.sameEntries_of_write` — what writing to a file leaves.
-/

set_option autoImplicit false

namespace GlobPreset

/-- An entry without what stands in it. -/
def DiskNode.emptied : DiskNode → DiskNode
  | .file _ => .file []
  | node => node

namespace Disk

open GlobPreset.Path

/-- Two disks have the same entries, but for the content of files. -/
structure SameEntries (d d' : Disk) : Prop where
  /-- They have the same limits. -/
  limits : d'.limits = d.limits
  /-- They have the same entries. -/
  nodes : (d'.nodes.map (fun n => (n.1, n.2.emptied))).Perm
    (d.nodes.map (fun n => (n.1, n.2.emptied)))

/-- A disk has the same entries as itself. -/
lemma SameEntries.refl (d : Disk) : d.SameEntries d := ⟨rfl, .refl _⟩

/-- Looking an entry up without what stands in it. -/
lemma lookup?_emptied (nodes : List (List Text × DiskNode)) (n : List Text) :
    lookup? n (nodes.map (fun n => (n.1, n.2.emptied))) = (lookup? n nodes).map .emptied := by
  induction nodes with
  | nil => rfl
  | cons first rest ih =>
    rw [List.map_cons, lookup?, lookup?, ih]
    split <;> rfl

/-- Entries that are the same but for contents are the same, or both are files. -/
lemma emptied_eq {node node' : DiskNode} (h : node'.emptied = node.emptied) :
    node' = node ∨ ∃ c c', node = .file c ∧ node' = .file c' := by
  cases node <;> cases node' <;> simp_all [DiskNode.emptied]

namespace SameEntries

variable {d d' : Disk}

/-- The entries have the same names. -/
lemma names_perm (h : d.SameEntries d') :
    (d'.nodes.map Prod.fst).Perm (d.nodes.map Prod.fst) := by
  have hnames := h.nodes.map Prod.fst
  rw [List.map_map, List.map_map] at hnames
  exact hnames

/-- **The same entries stand at all names**, or files with different content. -/
lemma at?_eq (h : d.SameEntries d') (hd : d.WellFormed) (n : List Text) :
    d'.at? n = d.at? n ∨ ∃ c c', d.at? n = some (.file c) ∧ d'.at? n = some (.file c') := by
  by_cases hnil : n.isEmpty = true
  · exact .inl (by rw [at?, at?, hnil, if_pos rfl, if_pos rfl])
  · have hlookup : ∀ node, lookup? n (d'.nodes.map (fun n => (n.1, n.2.emptied))) = some node ↔
        lookup? n (d.nodes.map (fun n => (n.1, n.2.emptied))) = some node := by
      intro node
      have hkeys : ∀ nodes : List (List Text × DiskNode),
          (nodes.map (fun n => (n.1, n.2.emptied))).map Prod.fst = nodes.map Prod.fst :=
        fun nodes => List.map_map
      rw [lookup?_eq_some_iff, lookup?_eq_some_iff, h.nodes.mem_iff]
      · rw [hkeys]
        exact hd.distinct
      · rw [hkeys]
        exact h.names_perm.nodup_iff.2 hd.distinct
    have hsame : (lookup? n d'.nodes).map DiskNode.emptied = (lookup? n d.nodes).map .emptied := by
      rw [← lookup?_emptied, ← lookup?_emptied]
      exact Option.ext hlookup
    rw [at?, at?, if_neg hnil, if_neg hnil]
    cases hnode : lookup? n d.nodes with
    | none =>
      rw [hnode] at hsame
      exact .inl (Option.map_eq_none_iff.1 hsame)
    | some node =>
      rw [hnode] at hsame
      obtain ⟨node', hnode', hemptied⟩ := Option.map_eq_some_iff.1 hsame
      rw [hnode']
      rcases emptied_eq hemptied with rfl | ⟨c, c', rfl, rfl⟩
      · exact .inl rfl
      · exact .inr ⟨c, c', rfl, rfl⟩

section Answers

variable (h : d.SameEntries d') (hd : d.WellFormed)
include h hd

/-! ### Finding -/

/-- Ways through segments without links end alike. -/
lemma pass_eq (aim : Aim) (segs : List Text) : ∀ current : List Text,
    d'.pass aim current segs = d.pass aim current segs := by
  induction segs with
  | nil => exact fun _ => rfl
  | cons s segs ih =>
    intro current
    have hrefuses : d'.refusesName s = d.refusesName s := by
      rw [refusesName, refusesName, h.limits]
    simp only [pass, hrefuses, ih]
    rcases h.at?_eq hd (current ++ [s]) with hat | ⟨c, c', hat, hat'⟩
    · simp only [hat]
    · simp only [hat, hat']

/-- A way is the same on a disk with the same entries. -/
lemma passWithin_eq (aim : Aim) (links : Nat) : ∀ directory segs : List Text,
    d'.passWithin aim links directory segs = d.passWithin aim links directory segs := by
  induction links with
  | zero =>
    intro directory segs
    simp only [passWithin, h.pass_eq hd]
  | succ links ih =>
    intro directory segs
    simp only [passWithin, h.pass_eq hd, ih]

/-- **Ways along a path end alike.** -/
lemma locate_eq (aim : Aim) (path : Text) : d'.locate aim path = d.locate aim path := by
  have hrefuses : d'.refusesPath path = d.refusesPath path := by
    rw [refusesPath, refusesPath, h.limits]
  simp only [locate, hrefuses, h.passWithin_eq hd]

/-- **Paths lead to the same entries**, or to files with different content. -/
lemma find_eq (path : Text) :
    d'.find path = d.find path ∨
      ∃ names c c', d.find path = .ok (names, .file c) ∧ d'.find path = .ok (names, .file c') := by
  simp only [find, h.locate_eq hd]
  cases d.locate .target path with
  | found names =>
    rcases h.at?_eq hd names with hat | ⟨c, c', hat, hat'⟩
    · simp only [hat, true_or]
    · exact .inr ⟨names, c, c', by simp only [hat], by simp only [hat']⟩
  | vacant names => exact .inl rfl
  | failed e => exact .inl rfl
  | atLink directory target pending => exact .inl rfl

/-- A path leads to the same kind of entry. -/
lemma kind?_eq (path : Text) : d'.kind? path = d.kind? path := by
  simp only [kind?]
  rcases h.find_eq hd path with hfind | ⟨names, c, c', hfind, hfind'⟩
  · rw [hfind]
  · rw [hfind, hfind']
    rfl

/-- Asking for a path gives the same answer. -/
lemma probe_eq (path : Text) : d'.probe path = d.probe path := by
  simp only [probe]
  rcases h.find_eq hd path with hfind | ⟨names, c, c', hfind, hfind'⟩
  · rw [hfind]
  · rw [hfind, hfind']
    rfl

/-! ### Resolving -/

/-- Resolving segments is the same if links are followed alike. -/
lemma resolveSegments_eq (follow : List Text → Text → Met → Resolution × Met) (segs : List Text) :
    ∀ (current : List Text) (met : Met),
      d'.resolveSegments follow current met segs = d.resolveSegments follow current met segs := by
  induction segs with
  | nil => exact fun _ _ => rfl
  | cons s segs ih =>
    intro current met
    simp only [resolveSegments, ih]
    rcases h.at?_eq hd (current ++ [s]) with hat | ⟨c, c', hat, hat'⟩
    · simp only [hat]
    · simp only [hat, hat']

/-- Resolving a path is the same, with any fuel. -/
lemma resolveWithin_eq (fuel : Nat) : d'.resolveWithin fuel = d.resolveWithin fuel := by
  induction fuel with
  | zero => rfl
  | succ fuel ih =>
    funext directory path met
    simp only [resolveWithin, ih, h.resolveSegments_eq hd]

/-- The real path is the same. -/
lemma realPath?_eq (path : Text) : d'.realPath? path = d.realPath? path := by
  have hlength : d'.nodes.length = d.nodes.length := by simpa using h.nodes.length_eq
  simp only [realPath?, hlength, h.resolveWithin_eq hd]

/-- **Paths are resolved alike.** -/
lemma resolve_eq (path : Text) : d'.resolve path = d.resolve path := by
  simp only [resolve, h.realPath?_eq hd]
  congr 1
  funext real
  rcases h.find_eq hd real with hfind | ⟨names, c, c', hfind, hfind'⟩
  · rw [hfind]
  · rw [hfind, hfind']

/-! ### Listing -/

/-- An entry is listed alike. -/
lemma entry_eq (asked : Text) (directory : List Text) (name : Text) :
    d'.entry asked directory name = d.entry asked directory name := by
  simp only [entry]
  rcases h.at?_eq hd (directory ++ [name]) with hat | ⟨c, c', hat, hat'⟩
  · rw [hat]
    rcases h.find_eq hd (Location.joinSegment asked name) with hfind | ⟨names, c, c', hfind, hfind'⟩
    · rw [hfind]
    · rw [hfind, hfind']
      rfl
  · rw [hat, hat']
    rfl

/-- **Directories are listed alike**, when entries are put in order. -/
lemma sortedList_eq (path : Text) :
    d'.fileSystem.sortedList path = d.fileSystem.sortedList path := by
  have hchildren : ∀ names, (d'.childNames names).Perm (d.childNames names) := by
    intro names
    have hkeys : ∀ nodes : List (List Text × DiskNode),
        nodes.filterMap (fun n => if n.1.dropLast = names then n.1.getLast? else none) =
          (nodes.map Prod.fst).filterMap
            (fun n => if n.dropLast = names then n.getLast? else none) := by
      intro nodes
      rw [List.filterMap_map]
      rfl
    rw [childNames, childNames, hkeys, hkeys]
    exact h.names_perm.filterMap _
  simp only [FileSystem.sortedList, fileSystem, list]
  split
  · rfl
  rcases h.find_eq hd path with hfind | ⟨names, c, c', hfind, hfind'⟩
  · rw [hfind]
    split
    · rename_i names hok
      have hentries : ((d'.childNames names).map (d'.entry path names)).Perm
          ((d.childNames names).map (d.entry path names)) := by
        rw [funext (h.entry_eq hd path names)]
        exact (hchildren names).map _
      refine congrArg Except.ok (FileSystem.sortBy_entryOrder_eq_of_perm hentries ?_)
      have hnames : ((d.childNames names).map (d.entry path names)).map Entry.name =
          d.childNames names := by
        rw [List.map_map]
        exact List.map_id'' (fun name => entry_name) _
      rw [hnames]
      exact nodup_childNames hd names
    · rfl
    · rfl
  · rw [hfind, hfind']

/-- **The answers are the same**, but for what stands in files. -/
theorem sameAnswers : d.fileSystem.SameAnswers d'.fileSystem where
  sortedList := funext (h.sortedList_eq hd)
  realPath := by
    funext path
    simp only [fileSystem, realPath, h.realPath?_eq hd]
  refusal? := by
    funext path
    simp only [fileSystem, h.realPath?_eq hd]
  kind? := funext (h.kind?_eq hd)
  depthBound := by
    have hcount : ∀ nodes : List (List Text × DiskNode),
        (nodes.filter (fun n => n.2 == .directory)).length =
          (nodes.map (fun n => (n.1, n.2.emptied))).countP (fun n => n.2 == .directory) := by
      intro nodes
      rw [List.countP_map, List.countP_eq_length_filter]
      refine congrArg List.length (List.filter_congr fun n _ => ?_)
      obtain ⟨names, node⟩ := n
      cases node <;> rfl
    simp only [fileSystem, directoryCount, hcount, h.nodes.countP_eq]

/-- What can be written to one of the disks can be written to the other. -/
lemma exists_write {path content content' : Text} {e : Disk}
    (hwrite : d.write path content = .ok e) : ∃ e', d'.write path content' = .ok e' := by
  unfold write at hwrite ⊢
  rw [h.locate_eq hd]
  split at hwrite
  · cases hwrite
  · rename_i hrefused
    rw [if_neg hrefused]
    split at hwrite
    · rename_i names hlocate
      rcases h.at?_eq hd names with hat | ⟨c, c', hat, hat'⟩
      · rw [hat]
        cases hnode : d.at? names with
        | none => exact ⟨_, rfl⟩
        | some node =>
          cases node with
          | directory =>
            rw [hnode] at hwrite
            cases hwrite
          | file c => exact ⟨_, rfl⟩
          | link target => exact ⟨_, rfl⟩
          | special => exact ⟨_, rfl⟩
      · simp only [hat']
        exact ⟨_, rfl⟩
    · exact ⟨_, rfl⟩
    · cases hwrite
    · cases hwrite

end Answers

end SameEntries

/-! ### Writing -/

variable {d d' : Disk}

/-- Where one text can be written, every text can. -/
lemma exists_write_of_ok (hd : d.WellFormed) {path content : Text}
    (h : d.write path content = .ok d') (content' : Text) :
    ∃ e, d.write path content' = .ok e :=
  (SameEntries.refl d).exists_write hd h

/-- The way to a file to write is that to what is read, unless a slash behind it is refused. -/
lemma pass_content (segs : List Text) : ∀ current : List Text,
    d.pass .content current segs = d.pass .target current segs ∨
      d.pass .content current segs = .failed .isDirectory := by
  induction segs with
  | nil => exact fun _ => .inl rfl
  | cons s segs ih =>
    intro current
    rw [pass, pass]
    by_cases hskip : s = [] ∨ s = [.of '.']
    · rw [if_pos hskip, if_pos hskip]
      exact ih current
    rw [if_neg hskip, if_neg hskip]
    by_cases hup : s = [.of '.', .of '.']
    · rw [if_pos hup, if_pos hup]
      exact ih current.dropLast
    rw [if_neg hup, if_neg hup]
    by_cases hslash : segs ≠ [] ∧ segs.all List.isEmpty = true
    · exact .inr (if_pos ⟨rfl, hslash⟩)
    have hstays : ∀ aim : Aim, ¬ (aim = .content ∧ segs ≠ [] ∧ segs.all List.isEmpty = true) :=
      fun _ h => hslash h.2
    rw [if_neg (hstays .content), if_neg (hstays .target)]
    by_cases hrefused : d.refusesName s = true
    · rw [if_pos hrefused, if_pos hrefused]
      exact .inl rfl
    rw [if_neg hrefused, if_neg hrefused]
    dsimp only
    cases d.at? (current ++ [s]) with
    | none => exact .inl rfl
    | some node =>
      cases node with
      | directory => exact ih _
      | link target => exact .inl rfl
      | file content => exact .inl rfl
      | special => exact .inl rfl

/-- A way to a file to be written is that to an entry, or fails at a slash behind its name. -/
lemma passWithin_content (links : Nat) : ∀ directory segs : List Text,
    d.passWithin .content links directory segs = d.passWithin .target links directory segs ∨
      d.passWithin .content links directory segs = .failed .isDirectory := by
  induction links with
  | zero =>
    intro directory segs
    rw [passWithin, passWithin]
    rcases d.pass_content segs directory with h | h <;> rw [h]
    · exact .inl rfl
    · exact .inr rfl
  | succ links ih =>
    intro directory segs
    rw [passWithin, passWithin]
    rcases d.pass_content segs directory with h | h <;> rw [h]
    · cases d.pass .target directory segs with
      | atLink directory target pending => exact ih _ _
      | found names => exact .inl rfl
      | vacant names => exact .inl rfl
      | failed e => exact .inl rfl
    · exact .inr rfl

/-- A path to a file to be written leads where the path leads, or fails at a slash behind its name.
-/
lemma locate_content (path : Text) :
    d.locate .content path = d.locate .target path ∨
      d.locate .content path = .failed .isDirectory := by
  unfold locate
  split
  · exact .inl rfl
  split
  · exact .inl rfl
  exact d.passWithin_content _ _ _

/-- **Writing to a file** gives that file its content. -/
lemma write_of_find {path content : Text} {names : List Text} {c : Text}
    (hfind : d.find path = .ok (names, .file c)) (h : d.write path content = .ok d') :
    isRefused path = false ∧ d.locate .target path = .found names ∧
      d.at? names = some (.file c) ∧ d' = d.put names (.file content) := by
  have hlocate := find_eq_ok.1 hfind
  unfold write at h
  split at h
  · cases h
  rename_i hrefused
  refine ⟨by simpa using hrefused, hlocate.1, hlocate.2, ?_⟩
  rcases d.locate_content path with hcontent | hcontent
  · simp only [hcontent, hlocate.1, hlocate.2, Except.ok.injEq] at h
    exact h.symm
  · rw [hcontent] at h
    cases h

/-- What is looked up in two lists put together is looked up in the second one if it is not in the
first. -/
lemma lookup?_append (names : List Text) (nodes more : List (List Text × DiskNode)) :
    lookup? names (nodes ++ more) = (lookup? names nodes).or (lookup? names more) := by
  induction nodes with
  | nil => rfl
  | cons first rest ih =>
    rw [List.cons_append, lookup?, lookup?, ih]
    split <;> rfl

/-- Without the entry at some names, none is found there. -/
lemma lookup?_filter_self (names : List Text) (nodes : List (List Text × DiskNode)) :
    lookup? names (nodes.filter (fun n => decide (n.1 ≠ names))) = none := by
  induction nodes with
  | nil => rfl
  | cons first rest ih =>
    by_cases hfirst : first.1 = names
    · simpa [hfirst] using ih
    · simpa [hfirst, lookup?] using ih

/-- The entry that is put somewhere is there. -/
lemma at?_put {names : List Text} (hne : names ≠ []) (node : DiskNode) :
    (d.put names node).at? names = some node := by
  rw [at?, List.isEmpty_eq_false_iff.2 hne, if_neg Bool.false_ne_true, put, lookup?_append,
    lookup?_filter_self]
  simp [lookup?]

/-- **A file with another content** is the same entry. -/
lemma sameEntries_put (hd : d.WellFormed) {names : List Text} {c : Text}
    (hat : d.at? names = some (.file c)) (c' : Text) :
    d.SameEntries (d.put names (.file c')) := by
  have hne : names ≠ [] := by
    rintro rfl
    cases hat
  have hmem := (hd.at?_eq_some hne).1 hat
  have hnodup : d.nodes.Nodup := hd.distinct.of_map
  -- the file comes first, and the entries of other names after it
  have hperm : d.nodes.Perm
      ((names, .file c) :: d.nodes.filter (fun n => decide (n.1 ≠ names))) := by
    refine (List.perm_ext_iff_of_nodup hnodup ?_).2 fun n => ?_
    · exact List.nodup_cons.2 ⟨by simp, hnodup.filter _⟩
    · rw [List.mem_cons, List.mem_filter, decide_eq_true_eq]
      refine ⟨fun hn => ?_, ?_⟩
      · by_cases hname : n.1 = names
        · exact .inl (List.inj_on_of_nodup_map hd.distinct hn hmem hname)
        · exact .inr ⟨hn, hname⟩
      · rintro (rfl | hn)
        · exact hmem
        · exact hn.1
  have hsame := (hperm.map (fun n => (n.1, n.2.emptied))).symm
  refine ⟨rfl, ?_⟩
  rw [put, List.map_append]
  exact List.perm_append_comm.trans hsame

/-- What leads to a file finds one. -/
lemma exists_file_of_kind? {path : Text} (h : d.kind? path = some .file) :
    ∃ names c, d.find path = .ok (names, .file c) := by
  obtain ⟨-, names, node, hfind, hnode⟩ := kind?_eq_some.1 h
  cases node with
  | file c => exact ⟨names, c, hfind⟩
  | directory => cases hnode
  | link target => cases hnode
  | special => cases hnode

/-- What was written is found where the file was. -/
lemma find_of_write (hd : d.WellFormed) {path content : Text} {names : List Text} {c : Text}
    (hfind : d.find path = .ok (names, .file c)) (h : d.write path content = .ok d') :
    d'.find path = .ok (names, .file content) := by
  obtain ⟨-, hlocate, hat, rfl⟩ := write_of_find hfind h
  have hne : names ≠ [] := by
    rintro rfl
    cases hat
  rw [find, (sameEntries_put hd hat content).locate_eq hd, hlocate]
  simp only [at?_put hne]

/-- **Writing to a file leaves the same entries**, and what was written is read from the file. -/
theorem sameEntries_of_write (hd : d.WellFormed) {path content : Text}
    (hfile : d.kind? path = some .file) (hcontent : content.IsEncodable)
    (h : d.write path content = .ok d') : d.SameEntries d' ∧ d'.read path = .ok content := by
  obtain ⟨names, c, hfind⟩ := exists_file_of_kind? hfile
  have hfound := find_of_write hd hfind h
  obtain ⟨hrefused, -, hat, rfl⟩ := write_of_find hfind h
  exact ⟨sameEntries_put hd hat content, read_eq_of_find hrefused hfound hcontent⟩

end Disk

end GlobPreset
