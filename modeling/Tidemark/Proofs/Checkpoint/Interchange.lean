import Tidemark.Proofs.Checkpoint.Recovery

/-! Archives of both kinds in use. Whatever is asked of an archive in memory and of one in a
directory of its own, one request after another, both give the same replies; and the directory has
nothing in it but what the archive in memory still has. -/

namespace Tidemark

namespace DirectoryArchive

/-! ### Nothing is left over -/

/-- Where a state or a manifest lies, and not a draft of one. -/
def Kept (x : Place) : Prop := ∃ s, x = place .state s ∨ x = place .manifest s

theorem Kept.ne_draft {x y : Place} (hx : Kept x) (hy : Kept y) : x ≠ draft y := by
  obtain ⟨s, rfl | rfl⟩ := hx <;> obtain ⟨r, rfl | rfl⟩ := hy <;>
    simp [draft_state, draft_manifest]

/-- No file is a draft, and no directory is empty. -/
structure Tidy (dirs : Set String) (files : Place → Option Bytes) : Prop where
  kept : ∀ x, (files x).isSome → Kept x
  used : ∀ d ∈ dirs, ∃ name, (files (d, name)).isSome

section Tidy

variable {dirs : Set String} {files files' : Place → Option Bytes}

theorem Tidy.write (h : Tidy dirs files) {x : Place} (hx : Kept x) {content : Bytes}
    (hfiles' : ∀ y, files' y =
      if y = draft x then none else if y = x then some content else files y) :
    Tidy (insert x.1 dirs) files' := by
  -- a file that counts is written over at most by `x` itself
  have hstays : ∀ y, Kept y → y = x ∨ (files y).isSome → (files' y).isSome := by
    intro y hy hor
    rw [hfiles', if_neg (hy.ne_draft hx)]
    split
    · rfl
    · next hne => exact hor.resolve_left hne
  refine ⟨fun y hy => ?_, ?_⟩
  · rw [hfiles'] at hy
    split_ifs at hy with hdraft heq
    · cases hy
    · exact heq ▸ hx
    · exact h.kept y hy
  · rintro d (rfl | hd)
    · exact ⟨x.2, hstays x hx (.inl rfl)⟩
    · obtain ⟨name, hname⟩ := h.used d hd
      exact ⟨name, hstays _ (h.kept _ hname) (.inr hname)⟩

theorem Tidy.erase (h : Tidy dirs files) {x y : Place} (hxy : y.1 = x.1)
    (hfiles' : ∀ z, files' z = if z = x ∨ z = y then none else files z) :
    Tidy {d ∈ dirs | d = x.1 → ∃ name, (files' (x.1, name)).isSome} files' := by
  refine ⟨fun z hz => ?_, ?_⟩
  · rw [hfiles'] at hz
    split at hz
    · cases hz
    · exact h.kept z hz
  · rintro d ⟨hd, hempty⟩
    by_cases hdir : d = x.1
    · exact hdir ▸ hempty hdir
    · obtain ⟨name, hname⟩ := h.used d hd
      refine ⟨name, ?_⟩
      have hother : ¬ ((d, name) = x ∨ (d, name) = y) := by
        rintro (rfl | rfl)
        · exact hdir rfl
        · exact hdir hxy
      rw [hfiles', if_neg hother]
      exact hname

end Tidy

/-- A directory in which nothing is left over. -/
def Swept (a : DirectoryArchive) : Prop := ∃ dirs files, a.files.Flat dirs files ∧ Tidy dirs files

theorem swept_empty (top : String) : Swept ⟨.empty top, []⟩ :=
  ⟨∅, fun _ => none, FileTree.flat_empty top, by simp, by simp⟩

variable {a : DirectoryArchive} {m : MemoryArchive} {t : FileTree}

/-- A file was written as a whole. -/
theorem Swept.write (h : a.Swept) {x : Place} (hx : Kept x) {content : Bytes}
    (hrun : (writeSteps x.path content).forM FileStep.perform a.files = .ok () t) :
    Swept { a with files := t } := by
  obtain ⟨dirs, files, hflat, htidy⟩ := h
  obtain ⟨t', hrun', files', hflat', hfiles'⟩ := exists_run_writeSteps hflat x content
  obtain ⟨_, rfl⟩ := EStateM.Result.ok.inj (hrun.symm.trans hrun')
  exact ⟨_, files', hflat', htidy.write hx hfiles'⟩

/-- A share was removed as a whole. -/
theorem Swept.erase (h : a.Swept) (hm : a.Mirrors m) {s : Share} (hs : (m.manifests[s]?).isSome)
    (hrun : (a.eraseSteps s).forM FileStep.perform a.files = .ok () t) :
    Swept { a with files := t } := by
  obtain ⟨dirs, files, hflat, htidy⟩ := h
  obtain ⟨dirs₀, files₀, hflat₀, hdir, _⟩ := hm.exists_flat hs
  obtain ⟨rfl, rfl⟩ := hflat₀.unique hflat
  obtain ⟨t', hrun', files', hflat', hfiles'⟩ :=
    exists_run_eraseSteps (x := place .manifest s) (y := place .state s) hflat hdir
  rw [eraseSteps_eq hm.base] at hrun
  obtain ⟨_, rfl⟩ := EStateM.Result.ok.inj (hrun.symm.trans hrun')
  exact ⟨_, files', hflat', htidy.erase (y := place .state s) rfl hfiles'⟩

theorem Swept.eraseAll {p : UInt32} {ids : List UInt64} (h : a.Swept) (hm : a.Mirrors m)
    (hids : m.Holds p ids)
    (hrun : (ids.flatMap fun id => a.eraseSteps ⟨id, p⟩).forM FileStep.perform a.files = .ok () t) :
    Swept { a with files := t } := by
  induction ids generalizing a m with
  | nil =>
    obtain ⟨_, rfl⟩ := EStateM.Result.ok.inj hrun
    exact h
  | cons id ids ih =>
    have hid := hids.manifest id (by simp)
    obtain ⟨t₁, hrun₁, hm₁⟩ := hm.run_erase hid
    have h₁ := h.erase hm hid hrun₁
    rw [List.flatMap_cons, Command.run_forM_append, hrun₁] at hrun
    exact ih (a := { a with files := t₁ }) h₁ hm₁ hids.erase hrun

/-- The directory has what `m` has, and nothing is left over in it. -/
structure Matches (a : DirectoryArchive) (m : MemoryArchive) : Prop where
  mirrors : a.Mirrors m
  swept : a.Swept

theorem matches_empty (top : String) : Matches ⟨.empty top, []⟩ {} :=
  ⟨mirrors_empty top, swept_empty top⟩

theorem Matches.saveState (h : a.Matches m) (s : Share) (state : Bytes) :
    ∃ a', DirectoryArchive.saveState s state a = .ok () a' ∧ a'.Matches (m.saveState s state) := by
  obtain ⟨t, hrun, hm⟩ := h.mirrors.run_saveState s state
  refine ⟨_, saveState_eq hrun, hm, ?_⟩
  rw [saveStateSteps, statePath_eq h.mirrors.base] at hrun
  exact h.swept.write ⟨s, .inl rfl⟩ hrun

theorem Matches.saveManifest (h : a.Matches m) (n : Manifest) :
    ∃ a', DirectoryArchive.saveManifest n a = .ok () a' ∧ a'.Matches (m.saveManifest n) := by
  obtain ⟨t, hrun, hm⟩ := h.mirrors.run_saveManifest n
  refine ⟨_, saveManifest_eq hrun, hm, ?_⟩
  rw [saveManifestSteps, manifestPath_eq h.mirrors.base] at hrun
  exact h.swept.write ⟨n.share, .inr rfl⟩ hrun

theorem Matches.purge (h : a.Matches m) (p : UInt32) (keep : ℕ) :
    ∃ a', DirectoryArchive.purge p keep a = .ok () a' ∧ a'.Matches (m.purge p keep) := by
  obtain ⟨t, hrun, hm⟩ := h.mirrors.run_purge p keep
  refine ⟨_, (h.mirrors.purge_eq p keep).trans (performAll_eq hrun), hm, ?_⟩
  rw [h.mirrors.purgeSteps_eq] at hrun
  exact h.swept.eraseAll h.mirrors (m.holds_stale p keep) hrun

/-- A checkpoint has a directory while a partition has a state or a manifest in it. -/
theorem Matches.find_directory (h : a.Matches m) (id : UInt64) :
    a.files.find (a.directory id) = .ok .directory ↔
      ∃ p, (m.states[(⟨id, p⟩ : Share)]?).isSome ∨ (m.manifests[(⟨id, p⟩ : Share)]?).isSome := by
  obtain ⟨dirs, files, hflat, htidy⟩ := h.swept
  obtain ⟨dirs₀, files₀, hflat₀, _, hstates, hmanifests⟩ := h.mirrors.laid
  obtain ⟨rfl, rfl⟩ := hflat₀.unique hflat
  rw [directory, h.mirrors.base, List.nil_append, hflat.find_eq_directory]
  constructor
  · intro hdir
    obtain ⟨name, hname⟩ := htidy.used _ hdir
    obtain ⟨⟨i, p⟩, hplace⟩ := htidy.kept _ hname
    obtain rfl : id = i := by
      refine directoryName_inj.1 ?_
      rcases hplace with hplace | hplace <;> exact congrArg Prod.fst hplace
    refine ⟨p, hplace.imp (fun hstate => ?_) fun hmanifest => ?_⟩
    · rwa [hstate, hstates] at hname
    · rwa [hmanifest, hmanifests, Option.isSome_map] at hname
  · rintro ⟨p, hstate | hmanifest⟩
    · exact hflat.parent (place .state ⟨id, p⟩) (by rwa [hstates])
    · exact hflat.parent (place .manifest ⟨id, p⟩) (by rwa [hmanifests, Option.isSome_map])

/-- Making an archive in an empty directory leaves it empty. -/
theorem create_empty (top : String) : create (.empty top) [] = .ok ⟨.empty top, []⟩ := by
  have htop : (FileTree.empty top).put [] .directory = .empty top := by
    refine congrArg (FileTree.mk top) (Std.ExtTreeMap.ext_getElem? fun q => ?_)
    simp [FileTree.empty, Std.ExtTreeMap.getElem?_insert]
  have hnode : (FileTree.empty top).nodes[([] : Path)]? = some .directory :=
    (FileTree.flat_empty top).top
  simp only [create, FileTree.makeDirectories, FileTree.makeFrom, hnode, htop]
  rfl

end DirectoryArchive

namespace Archive

/-! ### Requests -/

/-- What is asked of an archive. -/
inductive Request where
  | saveState (s : Share) (state : Bytes)
  | saveManifest (n : Manifest)
  | loadState (s : Share)
  | loadManifest (s : Share)
  | list (p : UInt32)
  | latest (p : UInt32)
  | purge (p : UInt32) (keep : ℕ)

inductive Reply where
  | done
  | state (bs : Bytes)
  | manifest (n : Manifest)
  | checkpoints (ids : List UInt64)
  | newest (id : Option UInt64)

/-- Reply with what is read of an archive. -/
def read {β : Type} (f : Archive → Except Error β) (reply : β → Reply) : Command Archive Reply := do
  return reply (← Command.ofExcept (f (← get)))

def request : Request → Command Archive Reply
  | .saveState s state => (fun _ => .done) <$> saveState s state
  | .saveManifest n => (fun _ => .done) <$> saveManifest n
  | .loadState s => read (loadState s) .state
  | .loadManifest s => read (loadManifest s) .manifest
  | .list p => read (list p) .checkpoints
  | .latest p => read (latest p) .newest
  | .purge p keep => (fun _ => .done) <$> purge p keep

/-- The reply to a request, and none if it fails. -/
def reply? (r : Request) (a : Archive) : Option Reply := ((request r).answer a).toOption

/-- The archive after a list of requests; one that fails does not end the list. -/
def through (a : Archive) (rs : List Request) : Archive :=
  rs.foldl (fun a r => (request r).after a) a

/-- The replies to a list of requests. -/
def replies (a : Archive) : List Request → List (Option Reply)
  | [] => []
  | r :: rs => reply? r a :: replies ((request r).after a) rs

/-! ### Side by side -/

theorem answer_read {β : Type} (f : Archive → Except Error β) (reply : β → Reply) (a : Archive) :
    ((read f reply).answer a).toOption = (f a).toOption.map reply := by
  unfold read
  rw [Command.answer, Command.run_get_bind, Command.run_bind]
  cases f a <;> rfl

theorem after_read {β : Type} (f : Archive → Except Error β) (reply : β → Reply) (a : Archive) :
    (read f reply).after a = a := by
  unfold read
  rw [Command.after, Command.run_get_bind, Command.run_bind]
  cases f a <;> rfl

theorem run_done {c : Command Archive Unit} {a a' : Archive} (h : c a = .ok () a') :
    ((fun _ => Reply.done) <$> c) a = .ok .done a' := by
  rw [map_eq_pure_bind, Command.run_bind, h]
  rfl

/-- An archive in memory, and one in a directory that has the same in it and nothing else. -/
inductive SameRecords : Archive → Archive → Prop
  | mk {m : MemoryArchive} {d : DirectoryArchive} (h : d.Matches m) :
    SameRecords (.memory m) (.directory d)

variable {a b : Archive}

theorem sameRecords_empty (top : String) : SameRecords inMemory (directory ⟨.empty top, []⟩) :=
  .mk (DirectoryArchive.matches_empty top)

theorem SameRecords.exists_has (h : SameRecords a b) : ∃ m, a.Has m ∧ b.Has m := by
  obtain ⟨h⟩ := h
  exact ⟨_, rfl, h.mirrors⟩

/-- A command that both have done leaves the same in both. -/
theorem SameRecords.change (h : SameRecords a b) {f : MemoryArchive → MemoryArchive}
    {c : Command DirectoryArchive Unit}
    (hc : ∀ {d : DirectoryArchive} {m : MemoryArchive}, d.Matches m →
      ∃ d', c d = .ok () d' ∧ d'.Matches (f m)) :
    ∃ a' b', Archive.change f c a = .ok () a' ∧ Archive.change f c b = .ok () b' ∧
      SameRecords a' b' := by
  obtain ⟨h⟩ := h
  obtain ⟨d', hrun, h'⟩ := hc h
  exact ⟨_, .directory d', rfl, by rw [Archive.change, hrun], .mk h'⟩

/-- A request has the same reply from both, and leaves the same in both. -/
def SameReply (r : Request) (a b : Archive) : Prop :=
  reply? r a = reply? r b ∧ SameRecords ((request r).after a) ((request r).after b)

theorem SameRecords.sameReply_change (h : SameRecords a b) {r : Request}
    {f : MemoryArchive → MemoryArchive} {c : Command DirectoryArchive Unit}
    (hr : request r = (fun _ => Reply.done) <$> Archive.change f c)
    (hc : ∀ {d : DirectoryArchive} {m : MemoryArchive}, d.Matches m →
      ∃ d', c d = .ok () d' ∧ d'.Matches (f m)) : SameReply r a b := by
  obtain ⟨a', b', ha, hb, h'⟩ := h.change hc
  unfold SameReply reply? Command.answer Command.after
  rw [hr, run_done ha, run_done hb]
  exact ⟨rfl, h'⟩

theorem SameRecords.sameReply_read (h : SameRecords a b) {r : Request} {β : Type}
    {f : Archive → Except Error β} {reply : β → Reply} (hr : request r = read f reply)
    (hf : (f a).toOption = (f b).toOption) : SameReply r a b := by
  refine ⟨?_, ?_⟩
  · rw [reply?, reply?, hr, answer_read, answer_read, hf]
  · rw [hr, after_read, after_read]
    exact h

/-- One request. -/
theorem SameRecords.sameReply (h : SameRecords a b) (r : Request) : SameReply r a b := by
  obtain ⟨m, ha, hb⟩ := h.exists_has
  cases r with
  | saveState s state => exact h.sameReply_change rfl fun h => h.saveState s state
  | saveManifest n => exact h.sameReply_change rfl fun h => h.saveManifest n
  | purge p keep => exact h.sameReply_change rfl fun h => h.purge p keep
  | loadState s => exact h.sameReply_read rfl ((ha.loadState s).trans (hb.loadState s).symm)
  | loadManifest s =>
    exact h.sameReply_read rfl ((ha.loadManifest s).trans (hb.loadManifest s).symm)
  | list p => exact h.sameReply_read rfl (by rw [ha.list_eq, hb.list_eq])
  | latest p => exact h.sameReply_read rfl (by rw [ha.latest_eq, hb.latest_eq])

/-- Any number of requests. -/
theorem SameRecords.through (h : SameRecords a b) (rs : List Request) :
    a.replies rs = b.replies rs ∧ SameRecords (a.through rs) (b.through rs) := by
  induction rs generalizing a b with
  | nil => exact ⟨rfl, h⟩
  | cons r rs ih =>
    obtain ⟨hreply, hafter⟩ := h.sameReply r
    obtain ⟨hreplies, hthrough⟩ := ih hafter
    exact ⟨by rw [replies, replies, hreply, hreplies], hthrough⟩

/-- An archive in memory and one that is made in an empty directory give the same replies to the
same requests. Afterwards the directory of a checkpoint is there exactly when the archive in memory
has a state or a manifest of a partition under its id. -/
theorem interchangeable (top : String) (rs : List Request) :
    ∃ d₀, DirectoryArchive.create (.empty top) [] = .ok d₀ ∧
      inMemory.replies rs = (directory d₀).replies rs ∧
      ∃ m d, inMemory.through rs = .memory m ∧ (directory d₀).through rs = .directory d ∧
        ∀ id, d.files.find (d.directory id) = .ok .directory ↔
          ∃ p, (m.states[(⟨id, p⟩ : Share)]?).isSome ∨
            (m.manifests[(⟨id, p⟩ : Share)]?).isSome := by
  obtain ⟨hreplies, hsame⟩ := (sameRecords_empty top).through rs
  refine ⟨_, DirectoryArchive.create_empty top, hreplies, ?_⟩
  generalize inMemory.through rs = a at hsame
  generalize (directory ⟨.empty top, []⟩).through rs = b at hsame
  obtain ⟨h⟩ := hsame
  exact ⟨_, _, rfl, rfl, h.find_directory⟩

end Archive

end Tidemark
