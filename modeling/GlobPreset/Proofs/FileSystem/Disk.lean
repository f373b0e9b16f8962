import GlobPreset.FileSystem.Disk
import GlobPreset.Proofs.FileSystem.Project
import GlobPreset.Proofs.Path.Locations
import GlobPreset.Proofs.Text.Encoding
import GlobPreset.Proofs.Text.Order

/-!
# Disks answer coherently

A disk of which every entry lies in a directory is a project below every absolute path. Finding an
entry goes on from where a link was met, with the links that are left; so a longer path is found by
finding its directory first.

## Main definitions

* `Disk.WellFormed` — entries have names of their own and lie in directories.
* `Disk.Takes` — a path that the system does not refuse, be it for its length or its code points.

## Main results

* `Disk.passWithin_append` — a longer path is found by finding its directory first.
* `Disk.kind?_of_listed` — a listed entry is what its path leads to, unless that is too long.
* `Disk.realPath?_isProper` — real paths are in normal form.
* `Disk.isProject` — a well-formed disk answers coherently.
-/

set_option autoImplicit false

namespace GlobPreset.Disk

open GlobPreset.Path Location

/-- Entries have names of their own and lie in directories. -/
structure WellFormed (d : Disk) : Prop where
  /-- An entry is given by names. -/
  areNames : ∀ n ∈ d.nodes.map Prod.fst, n ≠ [] ∧ AreNames n
  /-- No entry is there twice. -/
  distinct : (d.nodes.map Prod.fst).Nodup
  /-- Every entry lies in a directory. -/
  parent : ∀ n ∈ d.nodes.map Prod.fst, d.at? n.dropLast = some .directory

instance (d : Disk) : Decidable d.WellFormed :=
  decidable_of_iff
    ((∀ n ∈ d.nodes.map Prod.fst, n ≠ [] ∧ AreNames n) ∧ (d.nodes.map Prod.fst).Nodup ∧
      ∀ n ∈ d.nodes.map Prod.fst, d.at? n.dropLast = some .directory)
    ⟨fun ⟨h₁, h₂, h₃⟩ => ⟨h₁, h₂, h₃⟩, fun h => ⟨h.areNames, h.distinct, h.parent⟩⟩

variable {d : Disk}

/-! ### Refusals -/

/-- A path is taken if none of its code points is forbidden. -/
lemma isRefused_eq_false_iff {path : Text} :
    isRefused path = false ↔ ∀ c ∈ path, isForbidden c = false := by
  simp [isRefused]

/-- Two texts put together are taken if both are. -/
@[simp] lemma isRefused_append (s t : Text) :
    isRefused (s ++ t) = (isRefused s || isRefused t) := by
  simp [isRefused]

/-- A path without a NUL that is refused is refused for a surrogate. -/
lemma exists_refusalOf_eq_unencodable {path : Text} (hnul : .of '\x00' ∉ path)
    (h : isRefused path = true) : ∃ e, refusalOf path = .unencodable e := by
  unfold refusalOf
  split
  · exact ⟨_, rfl⟩
  · rename_i hnone
    rw [Text.encodingError?_eq_none] at hnone
    obtain ⟨c, hc, hforbidden⟩ := List.any_eq_true.1 h
    simp only [isForbidden, Bool.or_eq_true, beq_iff_eq, Bool.and_eq_true] at hforbidden
    rcases hforbidden with rfl | ⟨hsurrogate, hbyte⟩
    · exact absurd hc hnul
    · simp [hnone c hc hsurrogate] at hbyte

/-! ### Entries -/

/-- The root is a directory. -/
lemma at?_nil : d.at? [] = some .directory := rfl

/-- What is at some names is the entry that is kept for them. -/
lemma WellFormed.at?_eq_some (h : d.WellFormed) {n : List Text} {node : DiskNode} (hne : n ≠ []) :
    d.at? n = some node ↔ (n, node) ∈ d.nodes := by
  rw [← lookup?_eq_some_iff h.distinct, at?, List.isEmpty_eq_false_iff.2 hne]
  rfl

/-- What contains an entry is a directory. -/
lemma WellFormed.at?_dropLast (h : d.WellFormed) {n : List Text} {node : DiskNode}
    (hn : d.at? n = some node) : d.at? n.dropLast = some .directory := by
  by_cases hne : n = []
  · subst hne
    rfl
  · exact h.parent n (List.mem_map.2 ⟨_, (h.at?_eq_some hne).1 hn, rfl⟩)

/-- The names in a directory are those of its entries. -/
lemma mem_childNames {directory : List Text} {name : Text} :
    name ∈ d.childNames directory ↔ directory ++ [name] ∈ d.nodes.map Prod.fst := by
  simp only [childNames, List.mem_filterMap, List.mem_map]
  constructor
  · rintro ⟨n, hn, hchild⟩
    split at hchild
    · rename_i hlast
      obtain ⟨front, hfront⟩ := List.getLast?_eq_some_iff.1 hchild
      rw [hfront, List.dropLast_concat] at hlast
      exact ⟨n, hn, by rw [hfront, hlast]⟩
    · cases hchild
  · rintro ⟨n, hn, heq⟩
    exact ⟨n, hn, by simp [heq]⟩

/-- The names in a directory are those under which something is there. -/
lemma WellFormed.mem_childNames_iff (h : d.WellFormed) {directory : List Text} {name : Text} :
    name ∈ d.childNames directory ↔ ∃ node, d.at? (directory ++ [name]) = some node := by
  have hne : directory ++ [name] ≠ [] := by simp
  simp only [mem_childNames, List.mem_map, Prod.exists, h.at?_eq_some hne]
  constructor
  · rintro ⟨n, node, hn, rfl⟩
    exact ⟨node, hn⟩
  · rintro ⟨node, hn⟩
    exact ⟨_, node, hn, rfl⟩

/-- No name is twice in a directory. -/
lemma nodup_childNames (h : d.WellFormed) (directory : List Text) :
    (d.childNames directory).Nodup := by
  have hkeys : d.childNames directory = (d.nodes.map Prod.fst).filterMap
      (fun n => if n.dropLast = directory then n.getLast? else none) := by
    rw [List.filterMap_map]
    rfl
  rw [hkeys]
  refine h.distinct.filterMap fun n n' name hn hn' => ?_
  have hfull : ∀ n : List Text, (if n.dropLast = directory then n.getLast? else none) = some name →
      n = directory ++ [name] := by
    intro n hn
    split at hn
    · rename_i hdirectory
      obtain ⟨front, rfl⟩ := List.getLast?_eq_some_iff.1 hn
      rw [List.dropLast_concat] at hdirectory
      rw [hdirectory]
    · cases hn
  rw [hfull n hn, hfull n' hn']

/-! ### Passing names -/

/-- A way through more segments goes on where the way through the first ones ends. -/
lemma pass_append (h : d.WellFormed) {more : List Text} (hmore : more ≠ []) :
    ∀ {segs current : List Text}, d.at? current = some .directory →
      d.pass .target current (segs ++ more) =
        match d.pass .target current segs with
        | .found n =>
          if d.at? n = some .directory then d.pass .target n more else .failed .notDirectory
        | .vacant _ => .failed .noEntry
        | .failed e => .failed e
        | .atLink directory target pending => .atLink directory target (pending ++ more) := by
  intro segs
  induction segs with
  | nil =>
    intro current hcurrent
    simp [pass, hcurrent]
  | cons s segs ih =>
    intro current hcurrent
    rw [List.cons_append, pass, pass]
    by_cases hskip : s = [] ∨ s = [.of '.']
    · simp only [hskip, if_true]
      exact ih hcurrent
    by_cases hup : s = [.of '.', .of '.']
    · simp only [hup, if_true]
      exact ih (h.at?_dropLast hcurrent)
    by_cases hrefused : d.refusesName s = true
    · simp [hskip, hup, hrefused]
    simp only [hskip, hup, hrefused, if_false, reduceCtorEq, false_and]
    have hlong : (segs ++ more).isEmpty = false := by simp [hmore]
    cases hat : d.at? (current ++ [s]) with
    | none => 
      cases segs <;> simp [hmore]
    | some node =>
      cases node with
      | directory => exact ih hat
      | link target => simp
      | file content => cases segs <;> simp [hmore, hat]
      | special => cases segs <;> simp [hmore, hat]

/-- A link is met in a directory. -/
lemma at?_of_atLink (h : d.WellFormed) :
    ∀ {segs current directory pending : List Text} {target : Text},
      d.at? current = some .directory →
      d.pass .target current segs = .atLink directory target pending →
      d.at? directory = some .directory := by
  intro segs
  induction segs with
  | nil =>
    intro current directory pending target _ hpass
    cases hpass
  | cons s segs ih =>
    intro current directory pending target hcurrent hpass
    rw [pass] at hpass
    split at hpass
    · exact ih hcurrent hpass
    split at hpass
    · exact ih (h.at?_dropLast hcurrent) hpass
    split at hpass
    · cases hpass
    split at hpass
    · cases hpass
    dsimp only at hpass
    split at hpass
    · split at hpass <;> cases hpass
    · rename_i hat
      exact ih hat hpass
    · split at hpass
      · cases hpass
      · cases hpass
        exact hcurrent
    · split at hpass <;> cases hpass

/-! ### Following links -/

/-- **A longer path is found by finding its directory first**, with the links that are left. -/
lemma passWithin_append (h : d.WellFormed) {more : List Text} (hmore : more ≠ [])
    {found : List Text} :
    ∀ {links : Nat} {current segs : List Text}, d.at? current = some .directory →
      d.passWithin .target links current (segs ++ more) = .found found →
      ∃ n left, d.passWithin .target links current segs = .found n ∧
        d.at? n = some .directory ∧ d.passWithin .target left n more = .found found := by
  intro links
  induction links with
  | zero =>
    intro current segs hcurrent hfound
    rw [passWithin, pass_append h hmore hcurrent] at hfound
    rw [passWithin]
    cases hpass : d.pass .target current segs with
    | found n =>
      rw [hpass] at hfound
      by_cases hn : d.at? n = some .directory
      · simp only [hn, if_true] at hfound
        exact ⟨n, 0, rfl, hn, by rw [passWithin]; exact hfound⟩
      · simp [hn] at hfound
    | vacant n => simp [hpass] at hfound
    | failed e => simp [hpass] at hfound
    | atLink directory target pending => simp [hpass] at hfound
  | succ links ih =>
    intro current segs hcurrent hfound
    rw [passWithin, pass_append h hmore hcurrent] at hfound
    rw [passWithin]
    cases hpass : d.pass .target current segs with
    | found n =>
      rw [hpass] at hfound
      by_cases hn : d.at? n = some .directory
      · simp only [hn, if_true] at hfound
        exact ⟨n, links + 1, rfl, hn, by rw [passWithin]; exact hfound⟩
      · simp [hn] at hfound
    | vacant n => simp [hpass] at hfound
    | failed e => simp [hpass] at hfound
    | atLink directory target pending =>
      simp only [hpass, ← List.append_assoc] at hfound
      refine ih ?_ hfound
      unfold startOf
      split
      · rfl
      · exact at?_of_atLink h hcurrent hpass

/-- Once a directory is found, a longer path is found from there, with the links that are left. -/
lemma passWithin_append_of_found (h : d.WellFormed) {more : List Text} (hmore : more ≠ [])
    {n : List Text} (hn : d.at? n = some .directory) :
    ∀ {links : Nat} {current segs : List Text}, d.at? current = some .directory →
      d.passWithin .target links current segs = .found n →
      ∃ left, d.passWithin .target links current (segs ++ more) =
        d.passWithin .target left n more := by
  intro links
  induction links with
  | zero =>
    intro current segs hcurrent hfound
    refine ⟨0, ?_⟩
    rw [passWithin] at hfound
    rw [passWithin, pass_append h hmore hcurrent]
    cases hpass : d.pass .target current segs with
    | found n' =>
      rw [hpass] at hfound
      cases hfound
      simp only [hn, if_true, passWithin]
    | vacant n' => simp [hpass] at hfound
    | failed e => simp [hpass] at hfound
    | atLink directory target pending => simp [hpass] at hfound
  | succ links ih =>
    intro current segs hcurrent hfound
    rw [passWithin] at hfound
    rw [passWithin, pass_append h hmore hcurrent]
    cases hpass : d.pass .target current segs with
    | found n' =>
      rw [hpass] at hfound
      cases hfound
      exact ⟨links + 1, by simp only [hn, if_true, passWithin]⟩
    | vacant n' => simp [hpass] at hfound
    | failed e => simp [hpass] at hfound
    | atLink directory target pending =>
      simp only [hpass] at hfound ⊢
      rw [← List.append_assoc]
      refine ih ?_ hfound
      unfold startOf
      split
      · rfl
      · exact at?_of_atLink h hcurrent hpass

/-- An empty segment does not matter. -/
lemma passWithin_nil_cons (aim : Aim) (links : Nat) (current segs : List Text) :
    d.passWithin aim links current ([] :: segs) = d.passWithin aim links current segs := by
  cases links <;> simp [passWithin, pass]

/-- A single name leads to the entry of that name, unless it is too long or that is a link. -/
lemma passWithin_name_of_at? {links : Nat} {current : List Text} {name : Text} {node : DiskNode}
    (hname : IsName name) (hat : d.at? (current ++ [name]) = some node)
    (hlink : ∀ target, node ≠ .link target) :
    d.passWithin .target links current [name] =
      if d.refusesName name then .failed .nameTooLong else .found (current ++ [name]) := by
  have hskip : ¬ (name = [] ∨ name = [.of '.']) := fun hor => hor.elim hname.ne_nil hname.ne_dot
  have hpass : d.pass .target current [name] =
      if d.refusesName name then .failed .nameTooLong else .found (current ++ [name]) := by
    rw [pass]
    simp only [hskip, hname.ne_dots, hat, if_false, reduceCtorEq, false_and]
    cases node with
    | link target => exact absurd rfl (hlink target)
    | directory => rfl
    | file content => rfl
    | special => rfl
  by_cases hrefused : d.refusesName name = true
  · cases links <;> simp [passWithin, hpass, hrefused]
  · cases links <;> simp [passWithin, hpass, hrefused]

/-- A single name leads to an entry of that name, which is the one that is found unless it is a
link. -/
lemma passWithin_name {links : Nat} {current found : List Text} {name : Text} (hname : IsName name)
    (h : d.passWithin .target links current [name] = .found found) :
    ∃ node, d.at? (current ++ [name]) = some node ∧
      ((∀ target, node ≠ .link target) → found = current ++ [name]) := by
  have hskip : ¬ (name = [] ∨ name = [.of '.']) := fun hor =>
    hor.elim hname.ne_nil hname.ne_dot
  cases hat : d.at? (current ++ [name]) with
  | none =>
    exfalso
    have hpass : d.pass .target current [name] =
        if d.refusesName name then .failed .nameTooLong else .vacant (current ++ [name]) := by
      rw [pass]
      simp only [hskip, hname.ne_dots, hat, if_false, reduceCtorEq, false_and]
      rfl
    by_cases hrefused : d.refusesName name = true
    · cases links <;> simp [passWithin, hpass, hrefused] at h
    · cases links <;> simp [passWithin, hpass, hrefused] at h
  | some node =>
    refine ⟨node, rfl, fun hlink => ?_⟩
    rw [passWithin_name_of_at? hname hat hlink] at h
    split at h
    · cases h
    · exact (Passage.found.inj h).symm

/-! ### Paths -/

/-- Where the way along a path from the root ends. -/
lemma locate_toText {l : Location} (hl : l.IsProper) (hfits : d.refusesPath l.toText = false)
    (aim : Aim) : d.locate aim l.toText = d.passWithin aim maxLinks [] l.segments := by
  have hsegments : d.passWithin aim maxLinks [] (Path.segments (.of '/' :: ofSegments l.segments)) =
      d.passWithin aim maxLinks [] l.segments := by
    by_cases hne : l.segments = []
    · rw [hne]
      cases aim <;> rfl
    · have hcut : Path.segments (.of '/' :: ofSegments l.segments) = [] :: l.segments := by
        have h := segments_append_slash [] (ofSegments l.segments)
        rw [segments_ofSegments hne hl.names] at h
        exact h
      rw [hcut, passWithin_nil_cons]
  rw [locate, List.isEmpty_eq_false_iff.2 hl.toText_ne_nil, hfits]
  simp only [Bool.false_eq_true, if_false]
  obtain ⟨anchor, names⟩ := l
  cases anchor with
  | relative => exact absurd rfl hl.absolute
  | root => exact hsegments
  | doubleRoot =>
    have hcut : Path.segments (toText ⟨.doubleRoot, names⟩) =
        [] :: Path.segments (.of '/' :: ofSegments names) :=
      segments_append_slash [] (.of '/' :: ofSegments names)
    rw [hcut, passWithin_nil_cons]
    exact hsegments

/-- No way leads along a path that is too long. -/
lemma locate_of_refusesPath {l : Location} (hl : l.IsProper) (hlong : d.refusesPath l.toText = true)
    (aim : Aim) : d.locate aim l.toText = .failed .nameTooLong := by
  rw [locate, List.isEmpty_eq_false_iff.2 hl.toText_ne_nil, if_neg Bool.false_ne_true, if_pos hlong]

/-- A path leads to something if the way along it ends at an entry. -/
lemma find_eq_ok {path : Text} {names : List Text} {node : DiskNode} :
    d.find path = .ok (names, node) ↔
      d.locate .target path = .found names ∧ d.at? names = some node := by
  unfold find
  cases d.locate .target path with
  | found n =>
    constructor
    · intro hfound
      dsimp only at hfound
      split at hfound
      · rename_i hat
        cases hfound
        exact ⟨rfl, hat⟩
      · cases hfound
    · rintro ⟨hn, hat⟩
      obtain rfl := Passage.found.inj hn
      simp only [hat]
  | vacant n => simp
  | failed e => simp
  | atLink directory target pending => simp

/-- A path from the root leads to something if it is neither refused nor too long, and the way along
it ends at an entry. -/
lemma find_toText {l : Location} (hl : l.IsProper) {names : List Text} {node : DiskNode} :
    d.find l.toText = .ok (names, node) ↔
      d.refusesPath l.toText = false ∧
        d.passWithin .target maxLinks [] l.segments = .found names ∧ d.at? names = some node := by
  rw [find_eq_ok]
  by_cases hfits : d.refusesPath l.toText = false
  · rw [locate_toText hl hfits .target, and_iff_right hfits]
  · have htoo : d.refusesPath l.toText = true := by simpa using hfits
    simp [locate_of_refusesPath hl htoo, htoo]

/-! ### Reading and writing a text -/

/-- What stands in a file is read, if it has no surrogates. -/
lemma read_eq_of_find {path content : Text} {names : List Text} (hrefused : isRefused path = false)
    (hfind : d.find path = .ok (names, .file content)) (h : content.IsEncodable) :
    d.read path = .ok content := by
  simp only [read, hrefused, hfind, Text.decodingError?_eq_none.2 h]
  rfl

section WriteText

variable {path text : Text}

/-- **A text without surrogates is written.** -/
lemma writeText_of_isEncodable (h : text.IsEncodable) :
    d.writeText path text =
      match d.write path text with
      | .ok opened => ⟨opened, none⟩
      | .error e => ⟨d, some e⟩ := by
  simp only [writeText, Text.encodingError?_strict_eq_none.2 h]
  rfl

/-- **Of any other text, nothing is written**, but its file is opened. -/
lemma exists_writeText_eq (d : Disk) (path : Text) (h : ¬ text.IsEncodable) :
    ∃ error, d.writeText path text =
      match d.write path [] with
      | .ok opened => ⟨opened, some (.unencodable error)⟩
      | .error e => ⟨d, some e⟩ := by
  cases herror : Text.encodingError? (fun _ => false) text with
  | none => exact absurd (Text.encodingError?_strict_eq_none.1 herror) h
  | some error => exact ⟨error, by simp only [writeText, herror]; rfl⟩

/-- No file is opened along a path that is refused. -/
lemma writeText_of_isRefused (h : isRefused path = true) :
    d.writeText path text = ⟨d, some (refusalOf path)⟩ := by
  simp only [writeText, write, if_pos h]

/-- Writing succeeds for a text without surrogates, if the file can be opened. -/
lemma writeText_failure_eq_none :
    (d.writeText path text).failure = none ↔
      text.IsEncodable ∧ d.write path text = .ok (d.writeText path text).disk := by
  by_cases htext : text.IsEncodable
  · rw [writeText_of_isEncodable htext]
    cases d.write path text <;> simp [htext]
  · obtain ⟨error, heq⟩ := exists_writeText_eq d path htext
    rw [heq]
    cases d.write path [] <;> simp [htext]

/-- Writing that fails leaves the disk, or an empty file if it is for the text that it fails. -/
lemma writeText_of_failure {f : FileError} (h : (d.writeText path text).failure = some f) :
    (d.writeText path text).disk = d ∨
      (∃ error, f = .unencodable error) ∧ d.write path [] = .ok (d.writeText path text).disk := by
  by_cases htext : text.IsEncodable
  · rw [writeText_of_isEncodable htext] at h ⊢
    cases hwrite : d.write path text with
    | ok opened => simp [hwrite] at h
    | error e => exact .inl rfl
  · obtain ⟨error, heq⟩ := exists_writeText_eq d path htext
    rw [heq] at h ⊢
    cases hopen : d.write path [] with
    | ok opened =>
      rw [hopen] at h
      exact .inr ⟨⟨error, (Option.some.inj h).symm⟩, rfl⟩
    | error e => exact .inl rfl

end WriteText

/-! ### Paths of one more name -/

/-- A path of one more name is longer. -/
lemma exists_joinSegment {path name : Text} (hname : IsName name) :
    ∃ tail, joinSegment path name = path ++ tail := by
  have hhead : name.head? ≠ some (.of '/') := fun hh => hname.noSlash (List.mem_of_head? hh)
  rw [joinSegment, if_neg hhead]
  split
  · exact ⟨name, rfl⟩
  · exact ⟨.of '/' :: name, rfl⟩

/-- A longer text has no fewer bytes. -/
lemma byteCount_le_append (s t : Text) : Text.byteCount s ≤ Text.byteCount (s ++ t) := by
  induction s with
  | nil => exact Nat.zero_le _
  | cons c s ih => exact Nat.add_le_add_left ih _

/-- What a longer path holds and needs, the path needs as well. -/
lemma refusals_of_append {path tail : Text} (hrefused : isRefused (path ++ tail) = false)
    (hfits : d.refusesPath (path ++ tail) = false) :
    isRefused path = false ∧ d.refusesPath path = false := by
  constructor
  · rw [isRefused_append, Bool.or_eq_false_iff] at hrefused
    exact hrefused.1
  · have hcount := byteCount_le_append path tail
    unfold refusesPath at hfits ⊢
    cases hlimits : d.limits with
    | none => rfl
    | some limits =>
      rw [hlimits] at hfits
      simp only [Option.any_some, decide_eq_false_iff_not] at hfits ⊢
      exact fun hlt => hfits (Nat.lt_of_lt_of_le hlt hcount)

/-- What a path that is not refused leads to. -/
lemma kind?_eq_some {path : Text} {kind : NodeKind} :
    d.kind? path = some kind ↔
      isRefused path = false ∧ ∃ names node, d.find path = .ok (names, node) ∧
        kindOf node = kind := by
  unfold kind?
  by_cases hrefused : isRefused path = true
  · simp [hrefused]
  · cases hfind : d.find path with
    | error e => simp [hrefused]
    | ok found =>
      obtain ⟨names, node⟩ := found
      simp [hrefused]

/-- What asking for a path finds is what it leads to. -/
lemma probe_eq_some {path : Text} {kind : NodeKind} :
    d.probe path = .ok (some kind) ↔ d.kind? path = some kind := by
  unfold probe kind?
  split
  · simp
  · cases hfind : d.find path with
    | error e => cases e <;> simp
    | ok found => simp

/-- The entries that are listed of a directory. -/
lemma list_eq_ok {path : Text} {entries : List Entry} :
    d.list path = .ok entries ↔
      isRefused path = false ∧ ∃ names, d.find path = .ok (names, .directory) ∧
        entries = (d.childNames names).map (d.entry path names) := by
  unfold list
  by_cases hrefused : isRefused path = true
  · simp [hrefused]
  · cases hfind : d.find path with
    | error e => simp [hrefused]
    | ok found =>
      obtain ⟨names, node⟩ := found
      cases node <;> simp [hrefused, eq_comm]

/-- An entry is listed under its name. -/
@[simp] lemma entry_name {asked name : Text} {directory : List Text} :
    (d.entry asked directory name).name = name := by
  unfold entry
  dsimp only
  split
  · split <;> rfl
  · rfl
  · rfl

/-- An entry is listed with the path that was asked for and its name. -/
@[simp] lemma entry_path {asked name : Text} {directory : List Text} :
    (d.entry asked directory name).path = joinSegment asked name := by
  unfold entry
  dsimp only
  split
  · split <;> rfl
  · rfl
  · rfl

/-- **What a directory and one more name lead to**: the directory is found, the name is that of an
entry in it, and a listing tells what the path leads to. -/
lemma find_concat (h : d.WellFormed) {l : Location} (hl : l.IsProper) {name : Text}
    (hname : IsName name) {kind : NodeKind}
    (hkind : d.kind? (joinSegment l.toText name) = some kind) :
    isRefused l.toText = false ∧ ∃ names, d.find l.toText = .ok (names, .directory) ∧
      name ∈ d.childNames names ∧ (d.entry l.toText names name).kind = kind := by
  obtain ⟨hrefused, found, node, hfind, hnode⟩ := kind?_eq_some.1 hkind
  have hfind' := hfind
  rw [hl.joinSegment_toText hname] at hfind'
  obtain ⟨hfits, hpass, hat⟩ :=
    (find_toText (l := ⟨l.anchor, l.segments ++ [name]⟩)
      (hl.further (areNames_singleton hname))).1 hfind'
  obtain ⟨n, left, hbefore, hdirectory, hmore⟩ :=
    passWithin_append h (List.cons_ne_nil name []) at?_nil hpass
  rw [← hl.joinSegment_toText hname] at hfits
  obtain ⟨tail, htail⟩ : ∃ tail, joinSegment l.toText name = l.toText ++ tail :=
    exists_joinSegment hname
  rw [htail] at hrefused hfits
  obtain ⟨hrefused', hfits'⟩ := refusals_of_append hrefused hfits
  obtain ⟨entry, hentry, hsame⟩ := passWithin_name hname hmore
  refine ⟨hrefused', n, (find_toText hl).2 ⟨hfits', hbefore, hdirectory⟩, ?_, ?_⟩
  · have hne : n ++ [name] ≠ [] := by simp
    exact mem_childNames.2 (List.mem_map.2 ⟨_, (h.at?_eq_some hne).1 hentry, rfl⟩)
  · -- a listing asks a link for what the path leads to, and what is no link is found itself
    unfold Disk.entry
    dsimp only
    rw [hentry]
    cases entry with
    | link target => simp only [hfind, hnode]
    | directory =>
      rw [hsame (by simp), hentry] at hat
      cases hat
      exact hnode
    | file content =>
      rw [hsame (by simp), hentry] at hat
      cases hat
      exact hnode
    | special =>
      rw [hsame (by simp), hentry] at hat
      cases hat
      exact hnode

/-- The system takes the path: it is not refused for a code point, and no name on the way is too
long, nor is the path. -/
def Takes (d : Disk) (path : Text) : Prop :=
  isRefused path = false ∧ d.find path ≠ .error .nameTooLong

instance (d : Disk) (path : Text) : Decidable (d.Takes path) :=
  inferInstanceAs (Decidable (isRefused path = false ∧ d.find path ≠ .error .nameTooLong))

/-- What is no link is found where it stands, if the system takes its path. -/
lemma find_of_at? (h : d.WellFormed) {l : Location} (hl : l.IsProper) {names : List Text}
    (hfind : d.find l.toText = .ok (names, .directory)) {name : Text} (hname : IsName name)
    {node : DiskNode} (hat : d.at? (names ++ [name]) = some node)
    (hlink : ∀ target, node ≠ .link target) (htakes : d.Takes (joinSegment l.toText name)) :
    d.find (joinSegment l.toText name) = .ok (names ++ [name], node) := by
  obtain ⟨-, hpass, hdirectory⟩ := (find_toText hl).1 hfind
  have hl' := hl.further (areNames_singleton hname)
  rw [hl.joinSegment_toText hname] at htakes ⊢
  have hfits : d.refusesPath (⟨l.anchor, l.segments ++ [name]⟩ : Location).toText = false := by
    by_contra hlong
    refine htakes.2 ?_
    rw [find, locate_of_refusesPath hl' (by simpa using hlong)]
  obtain ⟨left, hmore⟩ := passWithin_append_of_found h (List.cons_ne_nil name []) hdirectory
    at?_nil hpass
  rw [passWithin_name_of_at? hname hat hlink] at hmore
  have hshort : d.refusesName name = false := by
    by_contra hlong
    rw [if_pos (by simpa using hlong)] at hmore
    refine htakes.2 ?_
    rw [find, locate_toText hl' hfits .target, hmore]
  rw [hshort, if_neg Bool.false_ne_true] at hmore
  exact (find_toText hl').2 ⟨hfits, hmore, hat⟩

/-- **A listed entry is what its path leads to**, if the system takes that path. -/
lemma kind?_of_listed (h : d.WellFormed) {l : Location} (hl : l.IsProper) {entries : List Entry}
    {e : Entry} (hlist : d.list l.toText = .ok entries) (he : e ∈ entries)
    (hkind : e.kind ≠ .other) (htakes : d.Takes (joinSegment l.toText e.name)) :
    d.kind? (joinSegment l.toText e.name) = some e.kind := by
  obtain ⟨-, n, hfind, rfl⟩ := list_eq_ok.1 hlist
  obtain ⟨name, hmem, rfl⟩ := List.mem_map.1 he
  rw [entry_name] at htakes ⊢
  obtain ⟨-, hnames⟩ := h.areNames _ (mem_childNames.1 hmem)
  have hname : IsName name := hnames.right name (List.mem_singleton_self name)
  refine kind?_eq_some.2 ⟨htakes.1, ?_⟩
  unfold Disk.entry at hkind ⊢
  dsimp only at hkind ⊢
  cases hat : d.at? (n ++ [name]) with
  | none =>
    rw [hat] at hkind
    exact absurd rfl hkind
  | some node =>
    cases node with
    | link target =>
      -- a listing asks a link for what the path leads to
      simp only [hat] at hkind
      cases hfound : d.find (joinSegment l.toText name) with
      | error e =>
        rw [hfound] at hkind
        cases e <;> exact absurd rfl hkind
      | ok found => exact ⟨_, _, rfl, rfl⟩
    | directory => exact ⟨_, _, find_of_at? h hl hfind hname hat (by simp) htakes, rfl⟩
    | file content => exact ⟨_, _, find_of_at? h hl hfind hname hat (by simp) htakes, rfl⟩
    | special => exact ⟨_, _, find_of_at? h hl hfind hname hat (by simp) htakes, rfl⟩

/-! ### Real paths -/

/-- A path that resolving could not finish is absolute, if that holds of the targets of links. -/
lemma resolveSegments_looping {follow : List Text → Text → Met → Resolution × Met}
    (hfollow : ∀ current target met path, (follow current target met).1 = .looping path →
      path.head? = some (.of '/')) :
    ∀ {segs current : List Text} {met : Met} {path : Text},
      (d.resolveSegments follow current met segs).1 = .looping path →
        path.head? = some (.of '/') := by
  have hjoin : ∀ {path rest : Text}, path.head? = some (.of '/') →
      (joinSegment path rest).head? = some (.of '/') := by
    intro path rest hpath
    unfold joinSegment
    cases path with
    | nil => cases hpath
    | cons c path =>
      split
      · assumption
      · split <;> exact hpath
  intro segs
  induction segs with
  | nil =>
    intro current met path hres
    cases hres
  | cons s segs ih =>
    intro current met path hres
    rw [resolveSegments] at hres
    split at hres
    · exact ih hres
    split at hres
    · exact ih hres
    split at hres
    · cases hres
    dsimp only at hres
    split at hres
    · split at hres
      · exact ih hres
      · cases hres
        exact hjoin rfl
      · split at hres
        · cases hres
        · rename_i hlink
          cases hres
          exact hjoin (hfollow _ _ _ _ (by rw [hlink]))
        · exact ih hres
    · exact ih hres

/-- A link on which resolving gives up is told by an absolute path. -/
lemma resolveWithin_looping :
    ∀ {fuel : Nat} {directory : List Text} {path : Text} {met : Met} {stuck : Text},
      (d.resolveWithin fuel directory path met).1 = .looping stuck →
        stuck.head? = some (.of '/') := by
  intro fuel
  induction fuel with
  | zero =>
    intro directory path met stuck hres
    cases hres
  | succ fuel ih =>
    intro directory path met stuck hres
    exact resolveSegments_looping (fun _ _ _ _ => ih) hres

/-- What the links met so far lead to are names. -/
def MeetsNames (met : Met) : Prop := ∀ link names, (link, some names) ∈ met → AreNames names

/-- A link that was resolved to names may be remembered. -/
lemma MeetsNames.resolved {met : Met} (h : MeetsNames met) {link names : List Text}
    (hnames : AreNames names) : MeetsNames ((link, some names) :: met) := by
  intro link' names' hmem
  rcases List.mem_cons.1 hmem with heq | hmem
  · cases heq
    exact hnames
  · exact h _ _ hmem

/-- A link that is being resolved may be remembered. -/
lemma MeetsNames.pending {met : Met} (h : MeetsNames met) {link : List Text} :
    MeetsNames ((link, none) :: met) := by
  intro link' names hmem
  rcases List.mem_cons.1 hmem with heq | hmem
  · cases heq
  · exact h _ _ hmem

/-- Names are resolved to, and those of links that were met are names too. -/
structure LeadsToNames (r : Resolution × Met) : Prop where
  /-- What the links lead to are names. -/
  met : MeetsNames r.2
  /-- What is resolved to are names. -/
  names : ∀ names, r.1 = .resolved names → AreNames names

/-- What was resolved to names leads to names. -/
lemma LeadsToNames.of_resolved {current : List Text} {met : Met} (hcurrent : AreNames current)
    (hmet : MeetsNames met) : LeadsToNames (.resolved current, met) :=
  ⟨hmet, fun _ hres => Resolution.resolved.inj hres ▸ hcurrent⟩

/-- Resolving segments leads to names, if that holds of the targets of links.

**Proof sketch.** Induction on the segments: each is left out, takes one name back, adds a name, or
is a link that leads to names, now or before. -/
lemma resolveSegments_areNames {follow : List Text → Text → Met → Resolution × Met}
    (hfollow : ∀ current target met, AreNames current → MeetsNames met →
      LeadsToNames (follow current target met))
    {segs : List Text} (hsegs : ∀ s ∈ segs, .of '/' ∉ s) :
    ∀ {current : List Text} {met : Met}, AreNames current → MeetsNames met →
      LeadsToNames (d.resolveSegments follow current met segs) := by
  induction segs with
  | nil => exact fun hcurrent hmet => .of_resolved hcurrent hmet
  | cons s segs ih =>
    intro current met hcurrent hmet
    have ih :=
      fun {current} {met} => @ih (fun s hs => hsegs s (List.mem_cons_of_mem _ hs)) current met
    rw [resolveSegments]
    split
    · exact ih hcurrent hmet
    rename_i hskip
    split
    · exact ih (fun x hx => hcurrent x (List.dropLast_subset _ hx)) hmet
    rename_i hup
    split
    · exact ⟨hmet, fun names hres => by cases hres⟩
    have hname : IsName s := ⟨fun h => hskip (.inl h), hsegs s List.mem_cons_self,
      fun h => hskip (.inr h), hup⟩
    dsimp only
    split
    · rename_i target _
      split
      · rename_i names hlook
        exact ih (hmet _ _ (Text.mem_of_lookup?_eq_some hlook)) hmet
      · exact ⟨hmet, fun names hres => by cases hres⟩
      · obtain ⟨hafter, hnames⟩ := hfollow current target _ hcurrent hmet.pending
        split
        · rename_i hlink
          rw [hlink] at hafter
          exact ⟨hafter, fun names hres => by cases hres⟩
        · rename_i hlink
          rw [hlink] at hafter
          exact ⟨hafter, fun names hres => by cases hres⟩
        · rename_i names _ hlink
          rw [hlink] at hafter hnames
          have hresolved : AreNames names := hnames _ rfl
          exact ih hresolved (hafter.resolved hresolved)
    · exact ih (hcurrent.append (areNames_singleton hname)) hmet

/-- Resolving leads to names, if those of the directory and those that are remembered are names. -/
lemma resolveWithin_areNames {fuel : Nat} : ∀ {directory : List Text} {path : Text} {met : Met},
    AreNames directory → MeetsNames met →
      LeadsToNames (d.resolveWithin fuel directory path met) := by
  induction fuel with
  | zero => exact fun hdirectory hmet => .of_resolved hdirectory hmet
  | succ fuel ih =>
    intro directory path met hdirectory hmet
    refine resolveSegments_areNames (fun _ _ _ => ih)
      (fun s hs => Text.not_mem_of_mem_splitOn hs) ?_ hmet
    unfold startOf
    split
    · exact areNames_nil
    · exact hdirectory

/-- **Real paths are in normal form.** -/
theorem realPath?_isProper {path real : Text} (h : d.realPath? path = .ok real) :
    ∃ l : Location, l.IsProper ∧ real = l.toText := by
  unfold realPath? at h
  split at h
  · rename_i names hres
    cases h
    have hmet : MeetsNames [] := fun _ _ hmem => absurd hmem List.not_mem_nil
    exact ⟨_, isProper_below ((resolveWithin_areNames areNames_nil hmet).names names hres), rfl⟩
  · rename_i stuck hres
    cases h
    exact ⟨_, ofText_isProper (resolveWithin_looping hres), rfl⟩
  · cases h

/-- The real path of an absolute path has a slash. -/
lemma slash_mem_realPath {path : Text} (hpath : path.head? = some (.of '/')) :
    .of '/' ∈ d.realPath path := by
  unfold realPath
  split
  · rename_i real hreal
    obtain ⟨l, hl, rfl⟩ := realPath?_isProper hreal
    exact List.mem_of_head? hl.head?_toText
  · exact List.mem_of_head? hpath

/-! ### Coherence -/

/-- **A well-formed disk answers coherently** below every absolute path. -/
theorem isProject (h : d.WellFormed) {l : Location} (hl : l.IsProper) :
    d.fileSystem.IsProject l.toText where
  isName := by
    intro names entries e _ hlist he
    obtain ⟨-, n, -, rfl⟩ := list_eq_ok.1 hlist
    obtain ⟨name, hname, rfl⟩ := List.mem_map.1 he
    have hin := (h.areNames _ (mem_childNames.1 hname)).2 name (by simp)
    rwa [entry_name]
  path_eq := by
    intro names entries e _ hlist he
    obtain ⟨-, n, -, rfl⟩ := list_eq_ok.1 hlist
    obtain ⟨name, hname, rfl⟩ := List.mem_map.1 he
    rw [inside_concat, entry_name, entry_path]
  nodup := by
    intro names entries _ hlist
    obtain ⟨-, n, -, rfl⟩ := list_eq_ok.1 hlist
    have hnames : ((d.childNames n).map (d.entry (inside l.toText names) n)).map Entry.name =
        d.childNames n := by
      rw [List.map_map]
      exact List.map_id'' (fun name => entry_name) _
    rw [hnames]
    exact nodup_childNames h n
  listed := by
    intro names name kind entries hn hname hkind hlist
    rw [inside_concat, hl.inside hn] at hkind
    rw [hl.inside hn] at hlist
    obtain ⟨-, n, hfind, hin, hentry⟩ := find_concat h (hl.further hn) hname hkind
    obtain ⟨-, n', hfind', rfl⟩ := list_eq_ok.1 hlist
    obtain rfl : n = n' := by
      rw [hfind] at hfind'
      cases hfind'
      rfl
    exact ⟨_, List.mem_map_of_mem hin, entry_name, hentry⟩
  parent_directory := by
    intro names name hn hname hsome
    obtain ⟨kind, hkind⟩ := Option.isSome_iff_exists.1 hsome
    rw [inside_concat, hl.inside hn] at hkind
    obtain ⟨hrefused, n, hfind, -, -⟩ := find_concat h (hl.further hn) hname hkind
    rw [hl.inside hn]
    exact kind?_eq_some.2 ⟨hrefused, n, .directory, hfind, rfl⟩
  slash_mem := slash_mem_realPath hl.head?_toText

end GlobPreset.Disk
