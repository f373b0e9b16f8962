import GlobPreset.Proofs.Preset.Shelving

/-!
# Presets as a finite map

Requests about the presets of a project come one after the other, and may fail. What they are given
is decided by the names that were written and not deleted since: these are listed, they are taken,
and no other is there. A request about one name leaves the texts of all others as they were. This
holds for a project without a folder of its own or above it, on a disk that refuses no names and
paths as too long; the first preset makes the folder, and the later ones are looked for in it. A
request that fails because a text with a surrogate cannot be written has opened the file of its
preset by then, and counts as one that wrote it.

## Main definitions

* `Preset.Request`, `Preset.Reply`, `Preset.Request.perform` — requests about presets.
* `Preset.serve` — requests one after the other, with a log of the replies.
* `Preset.written` — the names that were written and not deleted since, read off a log.
* `Preset.Request.Conforms` — a reply that is decided by some names.
* `Preset.storedText?` — the text that is stored under a name.
* `Preset.IsBare` — a project without a folder.
* `Preset.Serves`, `Preset.Request.IsServed` — what a request does with a shelf.

## Main results

* `Preset.IsShelf.serves` — **what one request does** with a shelf.
* `Preset.IsShelf.of_serve` — what a run of requests makes of a shelf.
* `Preset.serve_conforms` — **presets are a finite map**.
* `Preset.not_serve_conforms` — a preset that was not saved is there.
-/

set_option autoImplicit false

namespace GlobPreset.Preset

open GlobPreset.Path Location Disk Workflow

/-! ### Requests -/

/-- A request about the presets of a project. -/
inductive Request where
  /-- Saves patterns. -/
  | save (now : Timestamp) (name : Text) (patterns : List Text) (overwrite : Bool)
      (origin : Option PresetFile.Origin)
  /-- Makes a preset from inputs. -/
  | create (now : Timestamp) (name : Text) (inputs : List Text) (level : Text) (context : Context)
  /-- Deletes a preset. -/
  | delete (name : Text)
  /-- Asks for the patterns of a preset. -/
  | load (name : Text)
  /-- Asks for the names of all presets. -/
  | list
  /-- Renews a preset. -/
  | renew (now : Timestamp) (name level : Text) (write : Bool) (context : Context)

/-- What a request that succeeds gives. -/
inductive Reply where
  /-- The path of the preset. -/
  | path (path : Text)
  /-- Nothing. -/
  | done
  /-- The patterns of the preset. -/
  | patterns (patterns : List Text)
  /-- The names of all presets. -/
  | names (names : List Text)
  /-- The renewed preset. -/
  | renewal (renewal : Renewal)
deriving DecidableEq

/-- The replies to requests, in order. -/
abbrev Log := List (Request × Except Fault Reply)

namespace Request

/-- The name that a request is about. -/
def name? : Request → Option Text
  | save _ name _ _ _ => some name
  | create _ name _ _ _ => some name
  | delete name => some name
  | load name => some name
  | list => none
  | renew _ name _ _ _ => some name

/-- Performs a request about the presets of a project. -/
def perform (project : Text) : Request → Workflow Reply
  | save now name patterns overwrite origin => do
    return .path (← Preset.save now project name patterns overwrite origin)
  | create now name inputs level context => do
    return .path (← Preset.create now project name inputs level context)
  | delete name => do
    Preset.delete project name
    return .done
  | load name => do
    return .patterns (← Preset.load project name)
  | list => do
    return .names (← Preset.names project)
  | renew now name level write context => do
    return .renewal (← Preset.renew now project name level write context)

/-- The names that are there behind a request that succeeded. -/
def update (names : List Text) : Request → List Text
  | save _ name _ _ _ => names.insert name
  | create _ name _ _ _ => names.insert name
  | delete name => names.erase name
  | load _ => names
  | list => names
  | renew _ name _ write _ => if write then names.insert name else names

/-- The names that are there behind a request that stopped at a surrogate: by then it has opened the
file of its preset, unless the system does not take the name. -/
def touch (names : List Text) (request : Request) : List Text :=
  match request.name? with
  | some name => if isRefused name then names else names.insert name
  | none => names

/-- The names that are there behind a request: one that fails does not change them, unless it failed
at a surrogate. -/
def after (names : List Text) (request : Request) : Except Fault Reply → List Text
  | .ok _ => request.update names
  | .error e => if e.isUnencodable then request.touch names else names

/-- A request fails for a reason of a kind. -/
def FailsWith (kind : Fault → Bool) (reply : Except Fault Reply) : Prop :=
  ∃ e, reply = .error e ∧ kind e = true

/-- A request succeeds. -/
def Succeeds (reply : Except Fault Reply) : Prop := ∃ result, reply = .ok result

/-- An error is a failure of a kind if the fault is of it. -/
@[simp] lemma failsWith_error {kind : Fault → Bool} {e : Fault} :
    FailsWith kind (.error e) ↔ kind e = true := by
  simp [FailsWith]

/-- A reply is no failure. -/
@[simp] lemma not_failsWith_ok {kind : Fault → Bool} {reply : Reply} :
    ¬ FailsWith kind (.ok reply) := by
  simp [FailsWith]

/-- A reply is a success. -/
@[simp] lemma succeeds_ok {result : Reply} : Succeeds (.ok result) := ⟨result, rfl⟩

/-- **A reply is decided by some names**: they are listed in order; saving without replacing and
making fail on them because they are taken; loading, deleting and renewing fail on all others
because these are missing. A level has to be one that is known. There is no other reason not to
delete or load, and saving fails besides for a surrogate in the text. -/
def Conforms (names : List Text) (reply : Except Fault Reply) : Request → Prop
  | save now name patterns overwrite origin =>
    (FailsWith Fault.isTaken reply ↔ overwrite = false ∧ name ∈ names) ∧
      (FailsWith Fault.isUnencodable reply ↔ ¬ (overwrite = false ∧ name ∈ names) ∧
        ¬ (PresetFile.render name patterns origin now).IsEncodable) ∧
      (FailsWith Fault.isTaken reply ∨ FailsWith Fault.isUnencodable reply ∨ Succeeds reply)
  | create _ name _ level _ =>
    (∃ l : Level, l.name = level) → (FailsWith Fault.isTaken reply ↔ name ∈ names)
  | delete name =>
    (FailsWith Fault.isMissing reply ↔ name ∉ names) ∧
      (FailsWith Fault.isMissing reply ∨ Succeeds reply)
  | load name =>
    (FailsWith Fault.isMissing reply ↔ name ∉ names) ∧
      (FailsWith Fault.isMissing reply ∨ Succeeds reply)
  | list => reply = .ok (.names (Text.sort names))
  | renew _ name level _ _ =>
    (∃ l : Level, l.name = level) → (FailsWith Fault.isMissing reply ↔ name ∉ names)

end Request

/-- Performs requests one after the other, and keeps a log. -/
def serve (project : Text) : List Request → Session → Log × Session
  | [], s => ([], s)
  | request :: requests, s =>
    let first := (request.perform project).run s
    let rest := serve project requests first.2
    ((request, first.1) :: rest.1, rest.2)

/-- The names that are there behind the requests of a log. -/
def keptAfter (names : List Text) (log : Log) : List Text :=
  log.foldl (fun names entry => entry.1.after names entry.2) names

/-- **The names that were written and not deleted since.** -/
def written (log : Log) : List Text := keptAfter [] log

/-- The text that is stored under a name. -/
def storedText? (d : Disk) (project name : Text) : Option Text :=
  match pathOf d project name with
  | .ok path => (d.read path).toOption
  | .error _ => none

/-- **A project without a folder**, on a disk that refuses no names: it is a directory, and neither
it nor a directory above it has an entry of the name of folders. -/
structure IsBare (d : Disk) (project : Text) : Prop where
  /-- The disk is well-formed. -/
  wellFormed : d.WellFormed
  /-- All names are taken. -/
  namesTaken : d.HasPlainNames
  /-- No name is too long. -/
  limits : d.limits = none
  /-- The path of the project is taken. -/
  notRefused : isRefused (plainPath project) = false
  /-- It leads to a directory, and no folder is there or above. -/
  bare : ∃ home, d.find (plainPath project) = .ok (home, .directory) ∧
    ∀ above, above <+: home → d.at? (above ++ [folderName]) = none

variable {d d' : Disk} {project name : Text} {home ns : List Text}

/-! ### One request -/

/-- What a request does with a shelf. -/
structure Serves (d d' : Disk) (project : Text) (home ns : List Text) (request : Request)
    (reply : Except Fault Reply) : Prop where
  /-- The reply is decided by the names. -/
  conforms : request.Conforms ns reply
  /-- The shelf has the presets that are there then. -/
  shelf : IsShelf d' project home (request.after ns reply)
  /-- Other presets stay. -/
  others : ∀ other, request.name? ≠ some other →
    d'.at? (fileOf home other) = d.at? (fileOf home other)

/-- A request is served on a disk with a shelf, whether it stops or succeeds. -/
def Request.IsServed (request : Request) (d : Disk) (project : Text) (home ns : List Text) : Prop :=
  Ends d (request.perform project)
    (fun e d' => Serves d d' project home ns request (.error e))
    (fun reply d' => Serves d d' project home ns request (.ok reply))

section Step

variable (h : IsShelf d project home ns)
include h

/-- A request that only asks leaves the disk. -/
lemma Serves.of_asked {request : Request} {reply : Reply} (heq : d' = d)
    (hconforms : request.Conforms ns (.ok reply)) (hupdate : request.update ns = ns) :
    Serves d d' project home ns request (.ok reply) := by
  subst heq
  exact ⟨hconforms, by rwa [Request.after, hupdate], fun _ _ => rfl⟩

/-- A request that changes what stands in the file of a preset. -/
lemma Serves.of_reshelved {request : Request} {reply : Except Fault Reply} {content : Option Text}
    (hname : isBadName name = false) (hchanged : Reshelved d d' home name content)
    (hconforms : request.Conforms ns reply) (habout : request.name? = some name)
    (hnodup : (request.after ns reply).Nodup)
    (hmem : ∀ other, other ∈ request.after ns reply ↔
      if other = name then content.isSome = true else other ∈ ns) :
    Serves d d' project home ns request reply where
  conforms := hconforms
  shelf := h.reshelved hchanged hname hnodup hmem
  others _ hother := hchanged.at?_fileOf fun heq => hother (heq ▸ habout)

/-- A request that stops leaves the disk, unless it stops at a surrogate: then the file of the
preset was opened. -/
lemma Serves.of_stopped {request : Request} {e : Fault} (hname : isBadName name = false)
    (hstopped : Stopped d d' home name e) (hconforms : request.Conforms ns (.error e))
    (habout : request.name? = some name) : Serves d d' project home ns request (.error e) := by
  unfold Stopped at hstopped
  split at hstopped
  · rename_i hsurrogate
    have hafter : request.after ns (.error e) = if isRefused name then ns else ns.insert name := by
      rw [Request.after, if_pos hsurrogate, Request.touch, habout]
    refine .of_reshelved h hname hstopped hconforms habout ?_ fun other => ?_
    · rw [hafter]
      split
      · exact h.distinct
      · exact h.distinct.insert
    · rw [hafter, opened]
      by_cases htaken : isRefused name = true
      · have hnone : name ∉ ns := fun hmem => by simp [h.taken name hmem] at htaken
        by_cases heq : other = name
        · simp [htaken, heq, hnone]
        · simp [htaken, heq]
      · by_cases heq : other = name
        · simp [htaken, heq]
        · simp [htaken, heq]
  · rename_i hother
    subst hstopped
    exact ⟨hconforms, by rwa [Request.after, if_neg hother], fun _ _ => rfl⟩

/-- A request that puts a text into the file of a preset. -/
lemma Serves.of_written {request : Request} {reply : Reply} {text : Text}
    (hname : isBadName name = false) (hchanged : Reshelved d d' home name (some text))
    (hconforms : request.Conforms ns (.ok reply)) (hupdate : request.update ns = ns.insert name)
    (habout : request.name? = some name) : Serves d d' project home ns request (.ok reply) := by
  refine .of_reshelved h hname hchanged hconforms habout ?_ fun other => ?_
  · rw [Request.after, hupdate]
    exact h.distinct.insert
  · rw [Request.after, hupdate, List.mem_insert_iff]
    by_cases heq : other = name
    · simp [heq]
    · rw [if_neg heq, or_iff_right heq]

/-- A request that removes the file of a preset. -/
lemma Serves.of_removed {request : Request} {reply : Reply} (hname : isBadName name = false)
    (hchanged : Reshelved d d' home name none) (hconforms : request.Conforms ns (.ok reply))
    (hupdate : request.update ns = ns.erase name) (habout : request.name? = some name) :
    Serves d d' project home ns request (.ok reply) := by
  refine .of_reshelved h hname hchanged hconforms habout ?_ fun other => ?_
  · rw [Request.after, hupdate]
    exact h.distinct.erase name
  · rw [Request.after, hupdate, h.distinct.mem_erase_iff]
    by_cases heq : other = name
    · simp [heq]
    · rw [if_neg heq, and_iff_right heq]

section Requests

variable (hname : isBadName name = false)
include hname

/-- **Saving a preset** adds its name, unless that is taken. -/
lemma IsShelf.serves_save (now : Timestamp) (patterns : List Text) (overwrite : Bool)
    (origin : Option PresetFile.Origin) :
    (Request.save now name patterns overwrite origin).IsServed d project home ns := by
  refine .bind ((h.ends_save hname).mono ?_ fun _ _ hQ => hQ) ?_
  · intro e d' hE
    split at hE
    · rename_i hthere
      obtain ⟨htaken, rfl⟩ := hE
      have hother := Fault.isUnencodable_of_isTaken htaken
      exact .of_stopped h hname (.of_other hother)
        (by simp [Request.Conforms, htaken, hother, hthere]) rfl
    · rename_i hthere
      obtain ⟨⟨hsurrogate, htext⟩, hreshelved⟩ := hE
      have htaken := (Fault.not_taken_of_isUnencodable hsurrogate).1
      exact .of_stopped h hname (.of_surrogate hsurrogate hreshelved)
        (by simp [Request.Conforms, htaken, hsurrogate, htext, hthere]) rfl
  · rintro path d' ⟨⟨hthere, htext⟩, text, hchanged⟩
    exact .pure (.of_written h hname hchanged
      (by simp [Request.Conforms, htext, hthere]) rfl rfl)

/-- **Making a preset** adds its name, unless that is taken. -/
lemma IsShelf.serves_create (now : Timestamp) (inputs : List Text) (level : Text)
    (context : Context) :
    (Request.create now name inputs level context).IsServed d project home ns := by
  refine .bind ((h.ends_create hname).mono ?_ fun _ _ hQ => hQ) ?_
  · rintro e d' ⟨htaken, hstopped⟩
    exact .of_stopped h hname hstopped (fun hlevel => by simp [htaken hlevel]) rfl
  · rintro path d' ⟨hfree, text, hchanged⟩
    exact .pure (.of_written h hname hchanged (fun _ => by simp [hfree]) rfl rfl)

/-- **Deleting a preset** takes its name away, if it is there. -/
lemma IsShelf.serves_delete : (Request.delete name).IsServed d project home ns := by
  refine .bind ((h.ends_delete hname).mono ?_ fun _ _ hQ => hQ) ?_
  · rintro e _ ⟨⟨hmem, hmissing⟩, rfl⟩
    exact .of_stopped h hname (.of_other (Fault.isUnencodable_of_isMissing hmissing))
      (by simp [Request.Conforms, hmem, hmissing]) rfl
  · rintro _ d' ⟨hmem, hchanged⟩
    exact .pure (.of_removed h hname hchanged (by simp [Request.Conforms, hmem]) rfl rfl)

/-- **Loading a preset** leaves the shelf. -/
lemma IsShelf.serves_load : (Request.load name).IsServed d project home ns := by
  refine .bind ((h.ends_load hname).mono ?_ fun _ _ hQ => hQ) ?_
  · rintro e _ ⟨⟨hmem, hmissing⟩, rfl⟩
    exact .of_stopped h hname (.of_other (Fault.isUnencodable_of_isMissing hmissing))
      (by simp [Request.Conforms, hmem, hmissing]) rfl
  · rintro _ d' ⟨hmem, heq⟩
    exact .pure (.of_asked h heq (by simp [Request.Conforms, hmem]) rfl)

/-- **Renewing a preset** leaves the names. -/
lemma IsShelf.serves_renew (now : Timestamp) (level : Text) (write : Bool) (context : Context) :
    (Request.renew now name level write context).IsServed d project home ns := by
  refine .bind ((h.ends_renew hname).mono ?_ fun _ _ hQ => hQ) ?_
  · rintro e d' ⟨hmissing, hstopped⟩
    exact .of_stopped h hname hstopped (fun hlevel => by simp [hmissing hlevel]) rfl
  · rintro r d' ⟨hmem, hwritten⟩
    refine .pure ?_
    cases write with
    | true =>
      obtain ⟨text, hchanged⟩ := hwritten
      exact .of_written h hname hchanged (fun _ => by simp [hmem]) rfl rfl
    | false => exact .of_asked h hwritten (fun _ => by simp [hmem]) rfl

end Requests

/-- **Listing the presets** leaves the shelf. -/
lemma IsShelf.serves_list : Request.list.IsServed d project home ns := by
  refine .bind_of_run (fun s hs => ?_) (.pure (.of_asked h rfl rfl rfl))
  subst hs
  exact ⟨s, h.names_run, rfl⟩

/-- **What one request does with a shelf.** -/
theorem IsShelf.serves (request : Request)
    (hname : ∀ name ∈ request.name?, isBadName name = false) :
    request.IsServed d project home ns := by
  cases request with
  | save now name patterns overwrite origin =>
    exact h.serves_save (hname name rfl) now patterns overwrite origin
  | create now name inputs level context =>
    exact h.serves_create (hname name rfl) now inputs level context
  | delete name => exact h.serves_delete (hname name rfl)
  | load name => exact h.serves_load (hname name rfl)
  | list => exact h.serves_list
  | renew now name level write context =>
    exact h.serves_renew (hname name rfl) now level write context

end Step

/-- What one request does with a shelf, read off its run. -/
lemma IsShelf.serves_run {s : Session} (h : IsShelf s.disk project home ns) (request : Request)
    (hname : ∀ name ∈ request.name?, isBadName name = false) :
    Serves s.disk ((request.perform project).run s).2.disk project home ns request
      ((request.perform project).run s).1 := by
  have hends := h.serves request hname
  rcases hrun : (request.perform project).run s with ⟨reply, s'⟩
  cases reply with
  | error e => exact hends.stops rfl hrun
  | ok reply => exact hends.succeeds rfl hrun

/-! ### Requests one after the other -/

/-- **What a run of requests makes of a shelf**: it has the presets that were there or were written,
and not deleted since. -/
theorem IsShelf.of_serve {requests : List Request} {s : Session}
    (h : IsShelf s.disk project home ns)
    (hnames : ∀ request ∈ requests, ∀ name ∈ request.name?, isBadName name = false) :
    IsShelf (serve project requests s).2.disk project home
      (keptAfter ns (serve project requests s).1) := by
  induction requests generalizing s ns with
  | nil => exact h
  | cons request requests ih =>
    obtain ⟨hfirst, hrest⟩ := List.forall_mem_cons.1 hnames
    exact ih (h.serves_run request hfirst).shelf hrest

/-! ### What is stored -/

/-- The text that is stored under a name stands in its file. -/
lemma IsShelf.storedText?_eq_some (h : IsShelf d project home ns) {text : Text} :
    storedText? d project name = some text ↔
      isBadName name = false ∧ d.at? (fileOf home name) = some (.file text) := by
  by_cases hbad : isBadName name = true
  · simp [storedText?, pathOf, hbad]
  have hname : isBadName name = false := by simpa using hbad
  obtain ⟨directory, hdirectory, hpath, -⟩ := h.exists_path hname
  rw [storedText?, hpath]
  rcases h.at?_file name with ⟨hmem, content, hcontent, hat⟩ | ⟨-, hnone⟩
  · have hfile := hdirectory.file hname (h.taken name hmem)
    simp [h.read_eq hfile hname hcontent hat, hat, hname, Except.toOption]
  · by_cases htaken : isRefused name = false
    · have hfile := hdirectory.file hname htaken
      simp [Disk.read, hfile.notRefused, h.find_of_not_mem hfile hname hnone, hnone,
        Except.toOption]
    · obtain ⟨hrefused, -⟩ := hdirectory.exists_refusalOf_eq hname (by simpa using htaken)
      simp [Disk.read, hrefused, hnone, Except.toOption]

/-- Texts are stored under the names of the presets on the shelf. -/
lemma IsShelf.isSome_storedText? (h : IsShelf d project home ns) (name : Text) :
    (storedText? d project name).isSome = true ↔ name ∈ ns := by
  simp only [Option.isSome_iff_exists, h.storedText?_eq_some]
  rcases h.at?_file name with ⟨hmem, hfile⟩ | ⟨hmem, hnone⟩
  · obtain ⟨text, -, hat⟩ := hfile
    exact iff_of_true ⟨text, h.accepted name hmem, hat⟩ hmem
  · simp [hnone, hmem]

/-- A project without a folder has an empty shelf. -/
lemma IsBare.exists_isShelf (h : IsBare d project) : ∃ home, IsShelf d project home [] := by
  obtain ⟨home, hfind, hnone⟩ := h.bare
  obtain ⟨links, hlinks, hway⟩ := exists_way_of_find h.wellFormed hfind
  have hfolder := hnone home (List.prefix_refl home)
  refine ⟨home, {
    wellFormed := h.wellFormed
    namesTaken := h.namesTaken
    limits := h.limits
    project := ⟨h.notRefused, _, links, (List.append_nil _).symm, hlinks, hway⟩
    above := fun n hn _ => hnone n hn
    folder := .inl hfolder
    only := fun last hsome => absurd ?_ hsome
    stored := by simp
    distinct := List.nodup_nil
    accepted := by simp
    taken := by simp }⟩
  rw [shelfOf, List.append_assoc, h.wellFormed.at?_append_eq_none hfolder]

/-- **Presets are a finite map.** Whatever requests about a project without a folder come one after
the other, the reply to the next one is decided by the names that were written and not deleted
since. Just under these names texts are stored, and the texts of all names that a request is not
about stay as they are. Names are spelled as the system hands them over, so that different ones name
different files.

**Proof sketch.** The shelf of the project is empty at first. Each request leaves it with the
presets that are there then, whether it fails or not; so by induction on the requests, a shelf of
just these presets is what the next request finds. -/
theorem serve_conforms {s : Session} (h : IsBare s.disk project) (earlier : List Request)
    (next : Request)
    (hnames : ∀ request ∈ earlier ++ [next], ∀ name ∈ request.name?,
      isBadName name = false ∧ name.isHandedOver = true) :
    let before := serve project earlier s
    let after := (next.perform project).run before.2
    next.Conforms (written before.1) after.1 ∧
      (∀ name, (storedText? before.2.disk project name).isSome = true ↔ name ∈ written before.1) ∧
      ∀ other, next.name? ≠ some other →
        storedText? after.2.disk project other = storedText? before.2.disk project other := by
  intro before after
  obtain ⟨home, hempty⟩ := h.exists_isShelf
  have haccepted : ∀ request ∈ earlier ++ [next], ∀ name ∈ request.name?, isBadName name = false :=
    fun request hrequest name hname => (hnames request hrequest name hname).1
  obtain ⟨hearlier, hnext⟩ := List.forall_mem_append.1 haccepted
  have hbefore : IsShelf before.2.disk project home (written before.1) := hempty.of_serve hearlier
  have hserves := hbefore.serves_run next (hnext next List.mem_cons_self)
  refine ⟨hserves.conforms, hbefore.isSome_storedText?, fun other hother => ?_⟩
  refine Option.ext fun text => ?_
  rw [hserves.shelf.storedText?_eq_some, hbefore.storedText?_eq_some, hserves.others other hother]

/-- A disk with an empty project, that refuses no names. -/
def looseDisk : Disk := { bareDisk with limits := none }

/-- The empty project has no folder. -/
lemma isBare_looseDisk : IsBare looseDisk "/p".toText where
  wellFormed := by decide
  namesTaken := by decide
  limits := rfl
  notRefused := by decide
  bare := by
    refine ⟨[[.of 'p']], by decide, fun above habove => ?_⟩
    rcases List.prefix_concat_iff.1 (show above <+: [] ++ [[.of 'p']] from habove) with rfl | habove
    · decide
    · rw [List.prefix_nil.1 habove]
      decide

/-- Two presets are made, one of them is refused the second time, and the other one is deleted. A
third one stops at a surrogate when it is written. -/
def fewRequests : List Request :=
  [.create ⟨2024, 1, 1, 0, 0, 0, none⟩ "a".toText [] "minimal".toText .standard,
    .save ⟨2024, 1, 1, 0, 0, 0, none⟩ "b".toText [] false none,
    .save ⟨2024, 1, 1, 0, 0, 0, none⟩ "a".toText [] false none,
    .delete "b".toText, .delete "b".toText,
    .save ⟨2024, 1, 1, 0, 0, 0, none⟩ "c".toText [[Text.strayByte]] false none]

/-- The one that is left is listed, and so is the one that was not written. -/
theorem serve_conforms_looseDisk :
    IsBare looseDisk "/p".toText ∧
      written (serve "/p".toText fewRequests ⟨looseDisk, []⟩).1 = ["c".toText, "a".toText] ∧
      ((Request.list.perform "/p".toText).run
        (serve "/p".toText fewRequests ⟨looseDisk, []⟩).2).1 =
          .ok (.names ["a".toText, "c".toText]) := by
  have hwritten : written (serve "/p".toText fewRequests ⟨looseDisk, []⟩).1 =
      ["c".toText, "a".toText] := by
    decide +kernel
  have hlisted := (serve_conforms (s := ⟨looseDisk, []⟩) isBare_looseDisk fewRequests .list
    (by decide)).1
  rw [hwritten] at hlisted
  exact ⟨isBare_looseDisk, hwritten, hlisted⟩

/-- **A preset that was not saved is there.** Its text has a surrogate, and so it is not written;
but from then on the preset is listed, and its name is taken. Where paths may not be as long as that
of a preset, loading one does not fail for a missing preset. -/
theorem not_serve_conforms :
    let saved := (save ⟨2024, 1, 1, 0, 0, 0, none⟩ "/p".toText "c".toText [[Text.strayByte]] false
      none).run ⟨looseDisk, []⟩
    (saved.1.toBool = false ∧ ((names "/p".toText).run saved.2).1 = .ok ["c".toText] ∧
      ((save ⟨2024, 1, 1, 0, 0, 0, none⟩ "/p".toText "c".toText [] false none).run saved.2).1 =
        .error (.presetExists "c".toText "/p/.presetc/presets/c.patterns".toText)) ∧
    ((load "/p".toText "c".toText).run ⟨{ bareDisk with limits := some ⟨4095, 20⟩ }, []⟩).1 =
      .error (.file (.system .nameTooLong "/p/.presetc/presets/c.patterns".toText)) := by
  decide +kernel

end GlobPreset.Preset
