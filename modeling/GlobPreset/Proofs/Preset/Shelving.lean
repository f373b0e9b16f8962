import GlobPreset.Proofs.Preset.Reads
import GlobPreset.Proofs.Preset.Shelf

/-!
# Requests about a shelf

A request about a preset of a shelf is decided by whether a preset of that name is there. It leaves
the disk as it was, or what stands in the file of that preset is all that it changes, but for the
directories of a first preset. Then the shelf has the presets that it had, with this one or without
it.

## Main definitions

* `Preset.Reshelved` — what stands in the file of a preset was changed, and nothing else.
* `Preset.opened` — what a writing leaves that fails because of the text.
* `Preset.Stopped` — what a request leaves that was stopped.

## Main results

* `Preset.IsShelf.reshelved` — **the shelf after a change**.
* `Preset.IsShelf.ends_store`, `Preset.IsShelf.ends_writeText`, `Preset.IsShelf.ends_unlink` — the
  changes are refused for a surrogate alone.
* `Preset.IsShelf.ends_save`, `Preset.IsShelf.ends_create`, `Preset.IsShelf.ends_load`,
  `Preset.IsShelf.ends_delete`, `Preset.IsShelf.ends_renew` — **how requests end**.
-/

set_option autoImplicit false

namespace GlobPreset

/-- A text is taken for a level if and only if it is the name of that one. -/
lemma Level.parse_eq_ok {t : Text} {l : Level} : Level.parse t = .ok l ↔ l.name = t := by
  constructor
  · intro h
    unfold parse at h
    split at h
    · rename_i l' hl
      obtain rfl := Except.ok.inj h
      rw [ofName?] at hl
      simpa using List.find?_some hl
    · cases h
  · rintro rfl
    cases l <;> decide

/-- A text that is not taken for a level is the name of none. -/
lemma Level.not_exists_of_parse_eq_error {t : Text} {e : UnknownLevel}
    (h : Level.parse t = .error e) : ¬ ∃ l : Level, l.name = t := by
  rintro ⟨l, hl⟩
  rw [Level.parse_eq_ok.2 hl] at h
  cases h

namespace Preset

open GlobPreset.Path Location Disk Workflow

variable {d d' : Disk} {project name path : Text} {home ns : List Text} {content : Option Text}

/-! ### Changing a shelf -/

/-- What stands in the file of a preset was changed, and nothing else but that its directory may
have been made. Without a content there is no such file any more. -/
structure Reshelved (d d' : Disk) (home : List Text) (name : Text) (content : Option Text) :
    Prop where
  /-- The disk is well-formed as before. -/
  wellFormed : d'.WellFormed
  /-- It has the same limits. -/
  limits : d'.limits = d.limits
  /-- The content stands in the file. -/
  here : d'.at? (fileOf home name) = content.map .file
  /-- It can be read. -/
  readable : ∀ text ∈ content, text.IsEncodable
  /-- The system takes the name, if there is a file. -/
  taken : content ≠ none → isRefused name = false
  /-- Directories lead to the shelf; all other entries are as before. -/
  elsewhere : ∀ n, n ≠ fileOf home name →
    d'.at? n = if n <+: shelfOf home then some .directory else d.at? n

/-- What is in the file of a preset when a text for it could not be written: it was opened, unless
the system does not take its name. -/
def opened (name : Text) : Option Text := if isRefused name then none else some []

/-- A name that a preset can have is taken if it has no surrogates. -/
lemma isRefused_of_isEncodable (hname : isBadName name = false) (h : name.IsEncodable) :
    isRefused name = false := by
  rw [isRefused_eq_false_iff]
  intro c hc
  have hnul : c ≠ .of '\x00' := by
    rintro rfl
    exact nul_not_mem hname (List.mem_append_left _ hc)
  simp [isForbidden, hnul, h c hc]

/-- What a request leaves that was stopped: the disk as it was, unless it stopped at a surrogate. -/
def Stopped (d d' : Disk) (home : List Text) (name : Text) (e : Fault) : Prop :=
  if e.isUnencodable = true then Reshelved d d' home name (opened name) else d' = d

/-- A request that stops for another reason leaves the disk. -/
lemma Stopped.of_other {e : Fault} (he : e.isUnencodable = false) : Stopped d d home name e := by
  rw [Stopped, he, if_neg Bool.false_ne_true]

/-- A request that stops at a surrogate has opened the file. -/
lemma Stopped.of_surrogate {e : Fault} (he : e.isUnencodable = true)
    (h : Reshelved d d' home name (opened name)) : Stopped d d' home name e := by
  rwa [Stopped, if_pos he]

/-- Other presets stay as they were. -/
lemma Reshelved.at?_fileOf (h : Reshelved d d' home name content) {other : Text}
    (hne : other ≠ name) : d'.at? (fileOf home other) = d.at? (fileOf home other) := by
  rw [h.elsewhere _ fun heq => hne (fileOf_injective home heq), if_neg]
  exact not_concat_isPrefix _ _

namespace IsShelf

variable (h : IsShelf d project home ns)
include h

/-- What leads to a shelf are directories, as far as it is there. -/
lemma at?_of_isPrefix {n : List Text} (hn : n <+: shelfOf home) :
    d.at? n = none ∨ d.at? n = some .directory := by
  have hhome : home <+: shelfOf home := append_shelfNames home ▸ List.prefix_append _ _
  rcases List.prefix_or_prefix_of_prefix hn hhome with habove | ⟨front, rfl⟩
  · by_cases heq : n = home
    · exact .inr (heq ▸ h.at?_home)
    · exact .inr (h.wellFormed.at?_of_prefix h.at?_home habove heq)
  · by_cases hfront : front = []
    · rw [hfront, List.append_nil]
      exact .inr h.at?_home
    · rw [← append_shelfNames, List.prefix_append_right_inj] at hn
      exact h.isClear front hn hfront

/-- An entry that is there stays when directories are made that lead to the shelf. -/
lemma at?_ite_eq {n : List Text} {node : DiskNode} (hat : d.at? n = some node) :
    (if n <+: shelfOf home then some .directory else d.at? n) = some node := by
  split
  · rename_i hn
    rcases h.at?_of_isPrefix hn with hnone | hdirectory
    · rw [hat] at hnone
      cases hnone
    · exact hdirectory.symm.trans hat
  · exact hat

variable (hchanged : Reshelved d d' home name content)
include hchanged

/-- Directories and links stay. -/
lemma at?_of_reshelved {n : List Text} {node : DiskNode} (hat : d.at? n = some node)
    (hnode : ∀ text, node ≠ .file text) : d'.at? n = some node := by
  rw [hchanged.elsewhere, h.at?_ite_eq hat]
  rintro rfl
  rcases h.at?_file name with ⟨-, text, -, hfile⟩ | ⟨-, hnone⟩
  · exact hnode text (Option.some.inj (hat.symm.trans hfile))
  · rw [hat] at hnone
    cases hnone

/-- All names are taken as before. -/
lemma hasPlainNames_of_reshelved : d'.HasPlainNames := by
  have hshelf : ∀ s ∈ shelfOf home, isRefused s = false := by
    rw [← append_shelfNames, List.forall_mem_append]
    exact ⟨h.notRefused_home, by decide⟩
  refine hasPlainNames_of_at? hchanged.wellFormed fun n node hat => ?_
  by_cases hfile : n = fileOf home name
  · have hsome : content ≠ none := by
      rintro rfl
      rw [hfile, hchanged.here] at hat
      cases hat
    rw [hfile, fileOf, List.forall_mem_append, List.forall_mem_singleton, isRefused_append_suffix]
    exact ⟨hshelf, hchanged.taken hsome⟩
  · rw [hchanged.elsewhere n hfile] at hat
    split at hat
    · rename_i hn
      exact fun s hs => hshelf s (hn.subset hs)
    · exact h.namesTaken.of_at? h.wellFormed hat

/-- Above the project, there is no folder then either. -/
lemma above_of_reshelved {n : List Text} (hn : n <+: home) (hne : n ≠ home) :
    d'.at? (n ++ [folderName]) = none := by
  have hlength : n.length < home.length :=
    lt_of_le_of_ne hn.length_le fun heq => hne (hn.eq_of_length heq)
  have hfile : n ++ [folderName] ≠ fileOf home name := by
    intro heq
    have hsame := congrArg List.length heq
    simp only [fileOf, shelfOf, List.length_append, List.length_singleton] at hsame
    omega
  rw [hchanged.elsewhere _ hfile, if_neg, h.above n hn hne]
  -- a folder on the way to the project would be a directory above it
  intro hlead
  have hhome : home <+: shelfOf home := append_shelfNames home ▸ List.prefix_append _ _
  have habove : n ++ [folderName] <+: home :=
    List.prefix_of_prefix_length_le hlead hhome (by simpa using Nat.succ_le_of_lt hlength)
  have hnone := h.above n hn hne
  by_cases heq : n ++ [folderName] = home
  · rw [heq, h.at?_home] at hnone
    cases hnone
  · rw [h.wellFormed.at?_of_prefix h.at?_home habove heq] at hnone
    cases hnone

/-- What is on the shelf is the preset that was changed, or one that was there. -/
lemma only_of_reshelved {last : Text} (hsome : d'.at? (shelfOf home ++ [last]) ≠ none) :
    ∃ other, (if other = name then content.isSome = true else other ∈ ns) ∧
      last = other ++ suffix := by
  by_cases hlast : shelfOf home ++ [last] = fileOf home name
  · rw [hlast, hchanged.here] at hsome
    refine ⟨name, ?_, (List.cons.inj (List.append_cancel_left hlast)).1⟩
    cases content with
    | none => exact absurd rfl hsome
    | some text => simp
  · rw [hchanged.elsewhere _ hlast, if_neg (not_concat_isPrefix _ _)] at hsome
    obtain ⟨other, hother, rfl⟩ := h.only last hsome
    refine ⟨other, ?_, rfl⟩
    rwa [if_neg]
    rintro rfl
    exact hlast rfl

/-- A preset that was changed can be read, and one that was there can be read as before. -/
lemma stored_of_reshelved {other : Text}
    (hother : if other = name then content.isSome = true else other ∈ ns) :
    ∃ text : Text, text.IsEncodable ∧ d'.at? (fileOf home other) = some (.file text) := by
  split at hother
  · rename_i heq
    obtain ⟨text, htext⟩ := Option.isSome_iff_exists.1 hother
    exact ⟨text, hchanged.readable text htext, by rw [heq, hchanged.here, htext]; rfl⟩
  · rename_i hne
    obtain ⟨text, hencodable, hat⟩ := h.stored other hother
    exact ⟨text, hencodable, (hchanged.at?_fileOf hne).trans hat⟩

/-- The name of a preset that was changed or that was there is a good one, and it is taken. -/
lemma accepted_of_reshelved (hname : isBadName name = false) {other : Text}
    (hother : if other = name then content.isSome = true else other ∈ ns) :
    isBadName other = false ∧ isRefused other = false := by
  split at hother
  · rename_i heq
    rw [heq]
    exact ⟨hname, hchanged.taken (Option.isSome_iff_ne_none.1 hother)⟩
  · exact ⟨h.accepted other hother, h.taken other hother⟩

/-- **The shelf after a change** has the presets of the same names, with or without the one that was
changed. -/
theorem reshelved (hname : isBadName name = false) {ns' : List Text} (hnodup : ns'.Nodup)
    (hmem : ∀ other, other ∈ ns' ↔ if other = name then content.isSome = true else other ∈ ns) :
    IsShelf d' project home ns' where
  wellFormed := hchanged.wellFormed
  namesTaken := h.hasPlainNames_of_reshelved hchanged
  limits := hchanged.limits.trans h.limits
  project := by
    obtain ⟨front, links, hsegs, hlinks, hway⟩ := h.project.way
    exact ⟨h.project.notRefused, front, links, hsegs, hlinks,
      hway.mono hchanged.limits fun n node hat => h.at?_of_reshelved hchanged hat⟩
  above n hn hne := h.above_of_reshelved hchanged hn hne
  folder := by
    refine .inr ?_
    rw [hchanged.elsewhere _ (by simp [fileOf]), if_pos (List.prefix_refl _)]
  only last hsome := by
    obtain ⟨other, hother, hlast⟩ := h.only_of_reshelved hchanged hsome
    exact ⟨other, (hmem other).2 hother, hlast⟩
  stored other hother := h.stored_of_reshelved hchanged ((hmem other).1 hother)
  distinct := hnodup
  accepted other hother := (h.accepted_of_reshelved hchanged hname ((hmem other).1 hother)).1
  taken other hother := (h.accepted_of_reshelved hchanged hname ((hmem other).1 hother)).2

end IsShelf

/-! ### The changes -/

namespace IsShelf

variable (h : IsShelf d project home ns) (hname : isBadName name = false)
  {E : Fault → Disk → Prop} {text : Text}
include h hname

/-- The file of a preset is at names. -/
lemma areNames_fileOf : AreNames (fileOf home name) :=
  (areNames_shelfOf h.areNames_home).append (areNames_singleton (isName_append_suffix hname))

/-- The directory of a preset is made, unless it is there. -/
lemma made_of_parent {directory : Text} (hdirectory : LeadsTo d directory home shelfNames) :
    (d.makeDirectories (Path.parent (within directory [name ++ suffix]))).failure = none ∧
      Made d (d.makeDirectories (Path.parent (within directory [name ++ suffix]))).disk
        (shelfOf home) := by
  have hfile := isName_append_suffix hname
  obtain ⟨base, links, hnames, hlinks, hway, hbase⟩ := hdirectory.plainNames_eq areNames_shelfNames
  have hsome : plainNames directory ≠ [] := by simp [hnames, shelfNames]
  obtain ⟨empties, hempties, hsegs, hparent⟩ := segments_file hfile hsome
  have hplain : ∀ s ∈ base ++ shelfNames, isRefused s = false := by
    rw [List.forall_mem_append]
    exact ⟨fun s hs => (hbase s hs).2, by decide⟩
  have hrefused : isRefused (Path.parent (within directory [name ++ suffix])) = false := by
    rw [isRefused_eq_false, segments_parent hsegs (by simp [hsome]), hnames,
      List.forall_mem_append]
    exact ⟨fun s hs => hempties s hs ▸ rfl, hplain⟩
  rw [makeDirectories, hrefused, if_neg Bool.false_ne_true, hparent, hnames,
    ← append_shelfNames home]
  exact makeLineage_of_isClear h.limits h.wellFormed (fun s hs => (hbase s hs).1) hway hlinks
    areNames_shelfNames (by simp [shelfNames]) h.isClear hplain

section Write

variable {d₁ : Disk} (hmade : Made d d₁ (shelfOf home))
  (hpath : LeadsTo d path home (shelfNames ++ [name ++ suffix]))
  (htaken : isRefused name = false)
include hmade hpath htaken

/-- With its directory, the file of a preset is written where nothing is, or in place of the one
that is there. -/
lemma write_of_made (htext : text.IsEncodable) :
    d₁.write path text = .ok (d₁.put (fileOf home name) (.file text)) ∧
      Reshelved d (d₁.put (fileOf home name) (.file text)) home name (some text) := by
  have hlimits₁ : d₁.limits = none := hmade.limits.trans h.limits
  have hshelf : d₁.at? (shelfOf home) = some .directory := by
    rw [hmade.at?_eq, if_pos (List.prefix_refl _)]
  have hbehind : d₁.at? (fileOf home name) = d.at? (fileOf home name) := by
    rw [hmade.at?_eq, if_neg]
    exact not_concat_isPrefix _ _
  obtain ⟨front, links, hsegs, hlinks, hway⟩ := hpath.way
  have hway₁ : Way d₁ links [] (front ++ shelfNames) (shelfOf home) := by
    rw [← append_shelfNames] at hshelf ⊢
    refine Way.append_names hlimits₁ hmade.wellFormed ?_ areNames_shelfNames hshelf
    exact hway.mono hmade.limits fun n node hat _ => (hmade.at?_eq n).trans (h.at?_ite_eq hat)
  rw [← List.append_assoc] at hsegs
  have hfile : d₁.at? (fileOf home name) = none ∨
      ∃ c, d₁.at? (fileOf home name) = some (.file c) := by
    rw [hbehind]
    rcases h.at?_file name with ⟨-, c, -, hfile⟩ | ⟨-, hnone⟩
    · exact .inr ⟨c, hfile⟩
    · exact .inl hnone
  refine ⟨write_end hlimits₁ hsegs (isName_append_suffix hname).isStep hway₁ hlinks
    hpath.notRefused hfile, ?_, hmade.limits, at?_put (by simp [fileOf]) _, ?_, fun _ => htaken,
    fun n hn => ?_⟩
  · refine hmade.wellFormed.put (h.areNames_fileOf hname) hshelf ?_ _
    change d₁.at? (fileOf home name) ≠ _
    rcases hfile with hnone | ⟨c, hfile⟩
    · simp [hnone]
    · simp [hfile]
  · rintro _ ⟨⟩
    exact htext
  · rw [at?_put_of_ne hn, hmade.at?_eq]

/-- **Writing to the file of a preset** puts the text into it, or empties it if the text has
surrogates. -/
theorem ends_writeText :
    Ends d₁ (attempt (d₁.writeText path text))
      (fun e d' => (e.isUnencodable = true ∧ ¬ text.IsEncodable) ∧
        Reshelved d d' home name (some []))
      (fun _ d' => text.IsEncodable ∧ Reshelved d d' home name (some text)) := by
  refine .attempt ?_
  by_cases htext : text.IsEncodable
  · obtain ⟨hwrite, hreshelved⟩ := h.write_of_made hname hmade hpath htaken htext
    rw [writeText_of_isEncodable htext, hwrite]
    exact ⟨htext, hreshelved⟩
  · obtain ⟨hwrite, hreshelved⟩ :=
      h.write_of_made hname hmade hpath htaken Text.isEncodable_nil
    obtain ⟨error, heq⟩ := exists_writeText_eq d₁ path htext
    rw [heq, hwrite]
    exact ⟨⟨rfl, htext⟩, hreshelved⟩

end Write

omit hname in
/-- Without a preset of its name, nothing but the shelf is made. -/
lemma reshelved_of_made {d₁ : Disk} (hmade : Made d d₁ (shelfOf home)) (hmem : name ∉ ns) :
    Reshelved d d₁ home name none := by
  have hnone : d.at? (fileOf home name) = none :=
    (h.at?_file name).elim (fun hthere => absurd hthere.1 hmem) And.right
  refine ⟨hmade.wellFormed, hmade.limits, ?_, by simp, fun hne => absurd rfl hne,
    fun n _ => hmade.at?_eq n⟩
  have hbehind : ¬ fileOf home name <+: shelfOf home := not_concat_isPrefix _ _
  rw [hmade.at?_eq, if_neg hbehind, hnone]
  rfl

/-- **Storing a text** makes the shelf, unless it is there, and puts the text into the file. If the
text has surrogates, the file is there and empty; if even the name has one that the system does not
take, there is none. -/
theorem ends_store {directory : Text} (hdirectory : LeadsTo d directory home shelfNames) :
    Ends d (store (within directory [name ++ suffix]) text)
      (fun e d' => (e.isUnencodable = true ∧ ¬ (text.IsEncodable ∧ isRefused name = false)) ∧
        Reshelved d d' home name (opened name))
      (fun _ d' => text.IsEncodable ∧ Reshelved d d' home name (some text)) := by
  obtain ⟨hok, hmade⟩ := h.made_of_parent hname hdirectory
  refine .bind_disk (.bind_attempt hok (.bind_disk ?_))
  by_cases htaken : isRefused name = false
  · have hopened : opened name = some [] := by rw [opened, htaken, if_neg Bool.false_ne_true]
    rw [hopened]
    refine (h.ends_writeText hname hmade (hdirectory.file hname htaken) htaken).mono ?_
      fun _ _ hQ => hQ
    rintro e d' ⟨⟨hsurrogate, htext⟩, hreshelved⟩
    exact ⟨⟨hsurrogate, fun hboth => htext hboth.1⟩, hreshelved⟩
  · obtain ⟨hrefused, error, herror⟩ := hdirectory.exists_refusalOf_eq hname (by simpa using htaken)
    refine .attempt ?_
    rw [writeText_of_isRefused hrefused, herror, opened, if_pos (by simpa using htaken)]
    exact ⟨⟨rfl, fun hboth => htaken hboth.2⟩,
      h.reshelved_of_made hmade fun hmem => htaken (h.taken name hmem)⟩

section There

variable (hpath : LeadsTo d path home (shelfNames ++ [name ++ suffix])) (hmem : name ∈ ns)
include hpath hmem

/-- **Removing a preset that is there** removes its file. -/
theorem ends_unlink : Ends d (change (d.unlink path)) E
    (fun _ d' => Reshelved d d' home name none) := by
  have hshelf := h.at?_shelf hmem
  obtain ⟨text, -, hat⟩ := h.stored name hmem
  obtain ⟨front, links, hsegs, hlinks, hway⟩ := h.exists_way_shelf hpath hshelf
  refine .change (unlink_end h.limits hsegs (isName_append_suffix hname).isStep hway hlinks
    hpath.notRefused hat) ?_
  have herased : (d.erase (fileOf home name)).WellFormed := h.wellFormed.erase (by simp [hat])
  refine ⟨herased, rfl, at?_erase (by simp), by simp, fun hne => absurd rfl hne, fun n hn => ?_⟩
  exact (at?_erase_of_ne hn).trans ((Made.refl h.wellFormed hshelf).at?_eq n)

end There

/-! ### Requests -/

variable {now : Timestamp} {context : Context}

/-- **Saving** is stopped by a preset of that name, unless that is to be replaced, and by a text
with surrogates. -/
theorem ends_save {patterns : List Text} {overwrite : Bool} {origin : Option PresetFile.Origin} :
    Ends d (save now project name patterns overwrite origin)
      (fun e d' =>
        if overwrite = false ∧ name ∈ ns then e.isTaken = true ∧ d' = d
        else (e.isUnencodable = true ∧
          ¬ (PresetFile.render name patterns origin now).IsEncodable) ∧
            Reshelved d d' home name (opened name))
      (fun _ d' => (¬ (overwrite = false ∧ name ∈ ns) ∧
          (PresetFile.render name patterns origin now).IsEncodable) ∧
        ∃ text, Reshelved d d' home name (some text)) := by
  obtain ⟨directory, hdirectory, hpath, hprobe⟩ := h.exists_path hname
  refine .bind_disk (.bind_take hpath (.bind_probe hprobe ?_))
  by_cases hthere : overwrite = false ∧ name ∈ ns
  · simp only [if_pos hthere]
    rw [if_pos (by simp [hthere])]
    exact .throw_bind ⟨rfl, rfl⟩ _
  · simp only [if_neg hthere]
    rw [if_neg (by simpa [and_comm] using hthere)]
    refine .bind ((h.ends_store hname hdirectory).mono ?_ fun _ _ hQ => hQ) ?_
    · rintro e d' ⟨⟨hsurrogate, htext⟩, hreshelved⟩
      refine ⟨⟨hsurrogate, fun hencodable => htext ⟨hencodable, ?_⟩⟩, hreshelved⟩
      exact isRefused_of_isEncodable hname (PresetFile.isEncodable_render.1 hencodable).1
    · rintro _ d' ⟨htext, hreshelved⟩
      exact .pure ⟨⟨hthere, htext⟩, _, hreshelved⟩

/-- **Making** a preset of a level that is known is stopped by one of that name. -/
theorem ends_create {inputs : List Text} {level : Text} :
    Ends d (create now project name inputs level context)
      (fun e d' => ((∃ l : Level, l.name = level) → (e.isTaken = true ↔ name ∈ ns)) ∧
        Stopped d d' home name e)
      (fun _ d' => name ∉ ns ∧ ∃ text, Reshelved d d' home name (some text)) := by
  obtain ⟨directory, hdirectory, hpath, hprobe⟩ := h.exists_path hname
  cases hlevel : Level.parse level with
  | error e =>
    exact .bind_take_error (e := .unknownLevel e) (by rw [hlevel]; rfl)
      ⟨fun hknown => absurd hknown (Level.not_exists_of_parse_eq_error hlevel), .of_other rfl⟩
  | ok l =>
    refine .bind_take (a := l) (by rw [hlevel]; rfl) (.bind_disk (.bind_take hpath
      (.bind_probe hprobe ?_)))
    by_cases hmem : name ∈ ns
    · rw [if_pos (by simp [hmem])]
      exact .throw_bind ⟨fun _ => iff_of_true rfl hmem, .of_other rfl⟩ _
    rw [if_neg (by simp [hmem])]
    have hother : ∀ e : Fault, e.IsOther →
        ((∃ l : Level, l.name = level) → (e.isTaken = true ↔ name ∈ ns)) ∧
          Stopped d d home name e :=
      fun e he => ⟨fun _ => iff_of_false (by simp [he.notTaken]) hmem,
        .of_other he.notUnencodable⟩
    have hstop : ∀ (e : Fault) d', e.isUnencodable = true →
        Reshelved d d' home name (opened name) →
        ((∃ l : Level, l.name = level) → (e.isTaken = true ↔ name ∈ ns)) ∧
          Stopped d d' home name e :=
      fun e d' he hreshelved => ⟨fun _ => iff_of_false
        (by simp [(Fault.not_taken_of_isUnencodable he).1]) hmem, .of_surrogate he hreshelved⟩
    dsimp only
    split
    · refine .bind ((h.ends_store hname hdirectory).mono ?_ fun _ _ hQ => hQ) ?_
      · exact fun e d' hE => hstop e d' hE.1.1 hE.2
      · exact fun _ d' hQ => .pure ⟨hmem, _, hQ.2⟩
    refine .bind_reads (P := Fault.IsOther) (.take fun e he => ?_) hother fun _ => ?_
    · obtain ⟨u, -, rfl⟩ := mapError_eq_error.1 he
      exact ⟨rfl, rfl, rfl⟩
    refine .bind_reads (reads_keepFiles _) hother fun files => ?_
    refine .bind ((ends_compileFiles h.refusal?_eq_none _ _).mono ?_ fun _ _ heq => heq) ?_
    · rintro e _ ⟨he, rfl⟩
      exact hother e he
    rintro result _ rfl
    refine (h.ends_save hname).mono ?_ ?_
    · intro e d' hE
      rw [if_neg fun hboth => hmem hboth.2] at hE
      exact hstop e d' hE.1.1 hE.2
    · rintro _ d' ⟨-, hreshelved⟩
      exact ⟨hmem, hreshelved⟩

/-- **Finding the path of a preset** is stopped if none of that name is there. -/
lemma ends_existing :
    Ends d (existing project name) (fun e d' => (name ∉ ns ∧ e.isMissing = true) ∧ d' = d)
      (fun path d' => (name ∈ ns ∧ LeadsTo d path home (shelfNames ++ [name ++ suffix])) ∧
        d' = d) := by
  obtain ⟨directory, hdirectory, hpath, hprobe⟩ := h.exists_path hname
  refine .bind_disk (.bind_take hpath (.bind_probe hprobe ?_))
  by_cases hmem : name ∈ ns
  · rw [if_neg (by simp [hmem])]
    exact .pure ⟨⟨hmem, hdirectory.file hname (h.taken name hmem)⟩, rfl⟩
  · rw [if_pos (by simp [hmem])]
    exact .throw_bind ⟨⟨hmem, rfl⟩, rfl⟩ _

/-- A preset that is there can be read. -/
lemma exists_readText (hpath : LeadsTo d path home (shelfNames ++ [name ++ suffix]))
    (hmem : name ∈ ns) : ∃ text, ∀ s, s.disk = d →
      ∃ s', (readText path).run s = (.ok text, s') ∧ s'.disk = d := by
  obtain ⟨text, htext, hat⟩ := h.stored name hmem
  refine ⟨Text.unifyNewlines text, fun s hs => ⟨s, readText_run.2 ⟨⟨text, ?_, rfl⟩, rfl⟩, hs⟩⟩
  rw [hs, h.read_eq hpath hname htext hat]

/-- **Loading** is stopped if no preset of that name is there. -/
theorem ends_load :
    Ends d (load project name) (fun e d' => (name ∉ ns ∧ e.isMissing = true) ∧ d' = d)
      (fun _ d' => name ∈ ns ∧ d' = d) := by
  refine .bind (h.ends_existing hname) ?_
  rintro path d₁ ⟨⟨hmem, hpath⟩, heq⟩
  rw [heq]
  obtain ⟨text, hread⟩ := h.exists_readText hname hpath hmem
  exact .bind_of_run hread (.pure ⟨hmem, rfl⟩)

/-- **Deleting** is stopped if no preset of that name is there. -/
theorem ends_delete :
    Ends d (delete project name) (fun e d' => (name ∉ ns ∧ e.isMissing = true) ∧ d' = d)
      (fun _ d' => name ∈ ns ∧ Reshelved d d' home name none) := by
  refine .bind (h.ends_existing hname) ?_
  rintro path d₁ ⟨⟨hmem, hpath⟩, heq⟩
  rw [heq]
  refine .bind_disk ((h.ends_unlink hname hpath hmem).mono (fun _ _ hE => hE) ?_)
  exact fun _ d' hreshelved => ⟨hmem, hreshelved⟩

/-- **Renewing** with a level that is known is stopped by a missing preset only if none of that name
is there. -/
theorem ends_renew {level : Text} {write : Bool} :
    Ends d (renew now project name level write context)
      (fun e d' => ((∃ l : Level, l.name = level) → (e.isMissing = true ↔ name ∉ ns)) ∧
        Stopped d d' home name e)
      (fun _ d' => name ∈ ns ∧
        if write then ∃ text, Reshelved d d' home name (some text) else d' = d) := by
  cases hlevel : Level.parse level with
  | error e =>
    exact .bind_take_error (e := .unknownLevel e) (by rw [hlevel]; rfl)
      ⟨fun hknown => absurd hknown (Level.not_exists_of_parse_eq_error hlevel), .of_other rfl⟩
  | ok l =>
    refine .bind_take (a := l) (by rw [hlevel]; rfl) (.bind ((h.ends_existing hname).mono
      ?_ fun _ _ hQ => hQ) ?_)
    · rintro e d' ⟨⟨hmem, hmissing⟩, heq⟩
      rw [heq]
      exact ⟨fun _ => iff_of_true hmissing hmem,
        .of_other (Fault.isUnencodable_of_isMissing hmissing)⟩
    rintro path d₁ ⟨⟨hmem, hpath⟩, heq⟩
    rw [heq]
    have htaken := h.taken name hmem
    have hother : ∀ e : Fault, e.IsOther →
        ((∃ l : Level, l.name = level) → (e.isMissing = true ↔ name ∉ ns)) ∧
          Stopped d d home name e :=
      fun e he => ⟨fun _ => iff_of_false (by simp [he.notMissing]) (not_not_intro hmem),
        .of_other he.notUnencodable⟩
    have hplain : LeadsTo d (plainPath path) home (shelfNames ++ [name ++ suffix]) :=
      hpath.plainPath (areNames_shelfNames.append (areNames_singleton (isName_append_suffix hname)))
        (by simp)
    obtain ⟨text, hread⟩ := h.exists_readText hname hplain hmem
    obtain ⟨before, hbefore⟩ := h.exists_readText hname hpath hmem
    rw [listFiles, bind_assoc]
    refine .bind_of_run hread ?_
    rw [bind_assoc]
    refine .bind_disk (.bind_reads (reads_expand _ _) hother fun files => ?_)
    refine .bind_disk (.bind_reads (reads_compile h.refusal?_eq_none _ _) hother fun result => ?_)
    refine .bind_of_run hbefore ?_
    dsimp only
    cases write with
    | true =>
      refine .bind ((h.ends_writeText hname (.refl h.wellFormed (h.at?_shelf hmem)) hpath
        htaken).mono ?_ fun _ _ hQ => hQ) fun _ d' hQ => .pure ⟨hmem, _, hQ.2⟩
      rintro e d' ⟨⟨hsurrogate, -⟩, hreshelved⟩
      refine ⟨fun _ => iff_of_false (by simp [(Fault.not_taken_of_isUnencodable hsurrogate).2])
        (not_not_intro hmem), .of_surrogate hsurrogate ?_⟩
      rwa [opened, htaken, if_neg Bool.false_ne_true]
    | false => exact .pure ⟨hmem, rfl⟩

end IsShelf

end Preset

end GlobPreset
