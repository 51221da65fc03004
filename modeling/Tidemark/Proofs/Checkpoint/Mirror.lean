import Std.Data.String.ToNat
import Tidemark.Checkpoint.Archive
import Tidemark.Proofs.Checkpoint.FlatTree
import Tidemark.Proofs.Checkpoint.Retention
import Tidemark.Proofs.Encoding.RoundTrip

/-! Archives of both kinds do the same. A directory mirrors an archive in memory when its files are
the states and the manifests of the shares there; no command on such a directory fails, and each
does what it does in memory. -/

namespace Tidemark

instance : LawfulEncoding Manifest where
  faithful m := Encoding.faithful_via
    (faithful (m.id, m.timestamp, m.partition, m.progress, m.stateSize)) rfl

namespace DirectoryArchive

/-! ### Names -/

theorem toList_directoryName (id : UInt64) :
    (directoryName id).toList = 'c' :: 'h' :: 'k' :: '-' :: Nat.toDigits 10 id.toNat := by
  show ("chk-" ++ Nat.repr id.toNat).toList = _
  simp

theorem number?_toDigits (n : UInt64) : number? (Nat.toDigits 10 n.toNat) = some n := by
  have hdigit : ∀ c ∈ Nat.toDigits 10 n.toNat, c.isDigit :=
    fun c hc => Nat.isDigit_of_mem_toDigits (by decide) (by decide) hc
  have hvalue : (Nat.toDigits 10 n.toNat).foldl
      (fun n d => 10 * n + (d.toNat - '0'.toNat)) 0 = n.toNat := by
    rw [← Nat.ofDigitChars_eq_foldl, Nat.ofDigitChars_ten_toDigits]
  unfold number?
  dsimp only
  split
  · next ds hds => exact absurd (hdigit '+' (by simp [hds])) (by decide)
  · rw [if_pos ⟨Nat.toDigits_ne_nil, List.all_eq_true.2 hdigit⟩, hvalue, if_pos n.toNat_lt_size,
      UInt64.ofNat_toNat]

/-- A directory is for the checkpoint that it is named after. -/
theorem idOfName?_directoryName (id : UInt64) : idOfName? (directoryName id) = some id := by
  rw [idOfName?, toList_directoryName]
  exact number?_toDigits id

theorem directoryName_inj {i j : UInt64} : directoryName i = directoryName j ↔ i = j := by
  constructor
  · intro h
    have hid := idOfName?_directoryName i
    rw [h, idOfName?_directoryName] at hid
    exact (Option.some.inj hid).symm
  · exact congrArg directoryName

/-- The files of a share: those that count, and those that are written before they are renamed. -/
inductive Part where
  | state | manifest | stateDraft | manifestDraft
deriving DecidableEq

namespace Part

def ending : Part → String
  | state => ".bin"
  | manifest => ".meta"
  | stateDraft => ".bin.tmp"
  | manifestDraft => ".meta.tmp"

/-- An ending begins where the digits before it end. -/
theorem takeWhile_ending (k : Part) (n : ℕ) :
    (Nat.toDigits 10 n ++ k.ending.toList).takeWhile Char.isDigit = Nat.toDigits 10 n := by
  rw [List.takeWhile_append_of_pos fun c hc =>
    Nat.isDigit_of_mem_toDigits (by decide) (by decide) hc]
  cases k <;> simp [ending]

theorem ending_inj {k l : Part} : k.ending = l.ending ↔ k = l := by
  cases k <;> cases l <;> simp [ending]

end Part

def fileName (k : Part) (p : UInt32) : String := s!"partition-{p}" ++ k.ending

theorem toList_fileName (k : Part) (p : UInt32) : (fileName k p).toList =
    "partition-".toList ++ (Nat.toDigits 10 p.toNat ++ k.ending.toList) := by
  show ("partition-" ++ Nat.repr p.toNat ++ k.ending).toList = _
  simp

theorem fileName_inj {k l : Part} {p q : UInt32} :
    fileName k p = fileName l q ↔ k = l ∧ p = q := by
  constructor
  · intro h
    have hlist := congrArg String.toList h
    rw [toList_fileName, toList_fileName] at hlist
    have hrest := List.append_cancel_left hlist
    have hdigits : Nat.toDigits 10 p.toNat = Nat.toDigits 10 q.toNat := by
      rw [← k.takeWhile_ending, hrest, l.takeWhile_ending]
    rw [hdigits] at hrest
    have hnat : p.toNat = q.toNat := by
      rw [← Nat.ofDigitChars_ten_toDigits (n := p.toNat), hdigits, Nat.ofDigitChars_ten_toDigits]
    have hending := String.toList_inj.1 (List.append_cancel_left hrest)
    exact ⟨Part.ending_inj.1 hending, UInt32.toNat_inj.1 hnat⟩
  · rintro ⟨rfl, rfl⟩
    rfl

/-- Where a file of a share lies. -/
def place (k : Part) (s : Share) : Place := (directoryName s.id, fileName k s.partition)

@[simp] theorem place_inj {k l : Part} {s r : Share} : place k s = place l r ↔ k = l ∧ s = r := by
  obtain ⟨i, p⟩ := s
  obtain ⟨j, q⟩ := r
  simp only [place, Prod.mk.injEq, directoryName_inj, fileName_inj, Share.mk.injEq]
  tauto

/-- Where a file lies before it is renamed. -/
def draft (x : Place) : Place := (x.1, x.2 ++ ".tmp")

theorem draft_state (s : Share) : draft (place .state s) = place .stateDraft s := by
  simp [draft, place, fileName, Part.ending, String.append_assoc]

theorem draft_manifest (s : Share) : draft (place .manifest s) = place .manifestDraft s := by
  simp [draft, place, fileName, Part.ending, String.append_assoc]

variable {a : DirectoryArchive} {m : MemoryArchive}

theorem statePath_eq (h : a.base = []) (s : Share) : a.statePath s = (place .state s).path := by
  rw [statePath, directory, h]
  rfl

theorem manifestPath_eq (h : a.base = []) (s : Share) :
    a.manifestPath s = (place .manifest s).path := by
  rw [manifestPath, directory, h]
  rfl

theorem eraseSteps_eq (h : a.base = []) (s : Share) : a.eraseSteps s =
    [.remove (place .manifest s).path, .remove (place .state s).path,
      .removeIfEmpty [(place .manifest s).1]] := by
  rw [eraseSteps, statePath_eq h, manifestPath_eq h, directory, h]
  rfl

/-! ### Writing -/

section Steps

open FileStep

variable {t : FileTree} {dirs : Set String} {files : Place → Option Bytes}

theorem writeSteps_path (x : Place) (content : Bytes) : writeSteps x.path content =
    [.makeDirectories [x.1], .write (draft x).path content, .rename (draft x).path x.path] :=
  rfl

/-- Writing a file leaves it and no draft. -/
theorem exists_run_writeSteps (h : t.Flat dirs files) (x : Place) (content : Bytes) :
    ∃ t', (writeSteps x.path content).forM perform t = .ok () t' ∧
      ∃ files', t'.Flat (insert x.1 dirs) files' ∧
        ∀ y, files' y =
          if y = draft x then none else if y = x then some content else files y := by
  obtain ⟨t₁, h₁, hflat₁⟩ := exists_makeDirectories h x.1
  obtain ⟨t₂, h₂, hflat₂⟩ := exists_write (x := draft x) hflat₁ (.inl rfl) content
  obtain ⟨t₃, h₃, hflat₃⟩ := exists_rename (y := x) hflat₂ (Function.update_self ..) (.inl rfl)
  refine ⟨t₃, ?_, _, hflat₃, fun y => ?_⟩
  · rw [writeSteps_path, Command.run_forM_cons (run_perform h₁),
      Command.run_forM_cons (run_perform h₂), Command.run_forM_cons (run_perform h₃)]
    rfl
  · simp only [Function.update_apply]
    split_ifs <;> rfl

/-- Removing the files of a share leaves the other files, and their directory if they are in it. -/
theorem exists_run_eraseSteps (h : t.Flat dirs files) {x y : Place} (hx : x.1 ∈ dirs) :
    ∃ t', [.remove x.path, .remove y.path, .removeIfEmpty [x.1]].forM perform t = .ok () t' ∧
      ∃ files', t'.Flat {d ∈ dirs | d = x.1 → ∃ name, (files' (x.1, name)).isSome} files' ∧
        ∀ z, files' z = if z = x ∨ z = y then none else files z := by
  obtain ⟨t₁, h₁, hflat₁⟩ := exists_remove h x
  obtain ⟨t₂, h₂, hflat₂⟩ := exists_remove hflat₁ y
  obtain ⟨t₃, h₃, hflat₃⟩ := exists_removeIfEmpty hflat₂ hx
  refine ⟨t₃, ?_, _, hflat₃, fun z => ?_⟩
  · rw [Command.run_forM_cons (run_perform h₁), Command.run_forM_cons (run_perform h₂),
      Command.run_forM_cons (run_perform h₃)]
    rfl
  · simp only [Function.update_apply]
    split_ifs with hy hx hor hor hor <;> first | rfl | tauto

end Steps

theorem performAll_eq {steps : List FileStep} {files : FileTree}
    (h : steps.forM FileStep.perform a.files = .ok () files) :
    performAll steps a = .ok () { a with files } := by
  rw [performAll, Command.focus, h]

/-- The states and the manifests of an archive in memory are in files, beside whatever else is
there. -/
structure Mirrors (a : DirectoryArchive) (m : MemoryArchive) : Prop where
  base : a.base = []
  laid : ∃ dirs files, a.files.Flat dirs files ∧ (∀ d ∈ dirs, ∃ id, d = directoryName id) ∧
    (∀ s, files (place .state s) = m.states[s]?) ∧
    ∀ s, files (place .manifest s) = m.manifests[s]?.map encode

theorem mirrors_empty (top : String) : Mirrors ⟨.empty top, []⟩ {} :=
  ⟨rfl, ∅, fun _ => none, FileTree.flat_empty top, by simp, by simp, by simp⟩

/-- A file of a share was written; a draft does not count. -/
theorem Mirrors.exists_write (h : Mirrors a m) (m' : MemoryArchive) (content : Bytes) {k l : Part}
    {s : Share} (hdraft : draft (place k s) = place l s) (hstate : l ≠ .state)
    (hmanifest : l ≠ .manifest)
    (hstates : ∀ r, m'.states[r]? = if k = .state ∧ s = r then some content else m.states[r]?)
    (hmanifests : ∀ r, m'.manifests[r]?.map encode =
      if k = .manifest ∧ s = r then some content else m.manifests[r]?.map encode) :
    ∃ t, (writeSteps (place k s).path content).forM FileStep.perform a.files = .ok () t ∧
      Mirrors { a with files := t } m' := by
  obtain ⟨dirs, files, hflat, hnamed, hstates₀, hmanifests₀⟩ := h.laid
  obtain ⟨t, hrun, files', hflat', hfiles'⟩ := exists_run_writeSteps hflat (place k s) content
  refine ⟨t, hrun, h.base, _, files', hflat', ?_, fun r => ?_, fun r => ?_⟩
  · rintro d (rfl | hd)
    · exact ⟨s.id, rfl⟩
    · exact hnamed d hd
  · have hnot : ¬ (Part.state = l ∧ r = s) := fun h => hstate h.1.symm
    simp only [hfiles', hdraft, hstates, ← hstates₀, place_inj, if_neg hnot]
    exact if_congr (and_congr eq_comm eq_comm) rfl rfl
  · have hnot : ¬ (Part.manifest = l ∧ r = s) := fun h => hmanifest h.1.symm
    simp only [hfiles', hdraft, hmanifests, ← hmanifests₀, place_inj, if_neg hnot]
    exact if_congr (and_congr eq_comm eq_comm) rfl rfl

theorem Mirrors.run_saveState (h : Mirrors a m) (s : Share) (state : Bytes) :
    ∃ t, (a.saveStateSteps s state).forM FileStep.perform a.files = .ok () t ∧
      Mirrors { a with files := t } (m.saveState s state) := by
  rw [saveStateSteps, statePath_eq h.base]
  exact h.exists_write (m.saveState s state) state (draft_state s) (by simp) (by simp)
    (fun r => by simp [MemoryArchive.saveState, Std.ExtTreeMap.getElem?_insert])
    (fun r => by simp [MemoryArchive.saveState])

theorem saveState_eq {s : Share} {state : Bytes} {t : FileTree}
    (h : (a.saveStateSteps s state).forM FileStep.perform a.files = .ok () t) :
    saveState s state a = .ok () { a with files := t } := by
  unfold saveState
  rw [Command.run_get_bind]
  exact Command.run_inContext (performAll_eq h) _

theorem Mirrors.saveState (h : Mirrors a m) (s : Share) (state : Bytes) :
    ∃ a', DirectoryArchive.saveState s state a = .ok () a' ∧ Mirrors a' (m.saveState s state) := by
  obtain ⟨t, hrun, h'⟩ := h.run_saveState s state
  exact ⟨_, saveState_eq hrun, h'⟩

theorem Mirrors.run_saveManifest (h : Mirrors a m) (n : Manifest) :
    ∃ t, (a.saveManifestSteps n).forM FileStep.perform a.files = .ok () t ∧
      Mirrors { a with files := t } (m.saveManifest n) := by
  rw [saveManifestSteps, manifestPath_eq h.base]
  refine h.exists_write (m.saveManifest n) (encode n) (draft_manifest n.share) (by simp) (by simp)
    (fun r => by simp [MemoryArchive.saveManifest]) fun r => ?_
  rw [MemoryArchive.saveManifest, Std.ExtTreeMap.getElem?_insert]
  by_cases hr : n.share = r <;> simp [hr]

theorem saveManifest_eq {n : Manifest} {t : FileTree}
    (h : (a.saveManifestSteps n).forM FileStep.perform a.files = .ok () t) :
    saveManifest n a = .ok () { a with files := t } := by
  unfold saveManifest
  rw [Command.run_get_bind]
  exact Command.run_inContext (performAll_eq h) _

theorem Mirrors.saveManifest (h : Mirrors a m) (n : Manifest) :
    ∃ a', DirectoryArchive.saveManifest n a = .ok () a' ∧ Mirrors a' (m.saveManifest n) := by
  obtain ⟨t, hrun, h'⟩ := h.run_saveManifest n
  exact ⟨_, saveManifest_eq hrun, h'⟩

/-! ### Reading -/

theorem Mirrors.isFile_manifestPath (h : Mirrors a m) (s : Share) :
    a.files.isFile (a.manifestPath s) = (m.manifests[s]?).isSome := by
  obtain ⟨dirs, files, hflat, _, _, hmanifests⟩ := h.laid
  rw [manifestPath_eq h.base, hflat.isFile, hmanifests, Option.isSome_map]

theorem Mirrors.loadState (h : Mirrors a m) (s : Share) :
    (a.loadState s).toOption = m.states[s]? := by
  obtain ⟨dirs, files, hflat, _, hstates, _⟩ := h.laid
  rw [DirectoryArchive.loadState, statePath_eq h.base, hflat.readFile, hstates]
  cases m.states[s]? <;> rfl

theorem Mirrors.loadManifest (h : Mirrors a m) (s : Share) :
    (a.loadManifest s).toOption = m.manifests[s]? := by
  obtain ⟨dirs, files, hflat, _, _, hmanifests⟩ := h.laid
  rw [DirectoryArchive.loadManifest, manifestPath_eq h.base, hflat.readFile, hmanifests]
  cases m.manifests[s]? with
  | none => rfl
  | some n =>
    exact congrArg Except.toOption (Encoding.decodeAs_encode (faithful n)
      "deserialize checkpoint metadata failed")

/-- A directory's name gives its checkpoint back, so two directories are for two checkpoints. -/
theorem Mirrors.directoryName_of_child (h : Mirrors a m) {l : List (String × Node)}
    (hl : a.files.children [] = .ok l) {name : String} (hname : (name, .directory) ∈ l)
    {id : UInt64} (hid : idOfName? name = some id) : name = directoryName id := by
  obtain ⟨dirs, files, hflat, hnamed, _⟩ := h.laid
  obtain ⟨j, rfl⟩ : ∃ j, name = directoryName j := by
    refine hnamed name (hflat.mem_dirs.2 ?_)
    exact ((FileTree.children_spec hl).1 name .directory).1 hname
  rw [← Option.some.inj ((idOfName?_directoryName j).symm.trans hid)]

/-- The checkpoints that directories are for ascend, each once. -/
theorem Mirrors.exists_checkpointIds (h : Mirrors a m) : ∃ ids, a.checkpointIds = .ok ids ∧
    ids.Pairwise (· < ·) ∧ ∀ s : Share, (m.manifests[s]?).isSome → s.id ∈ ids := by
  obtain ⟨dirs, files, hflat, _, _, hmanifests⟩ := h.laid
  obtain ⟨l, hl⟩ : ∃ l, a.files.children [] = .ok l := by
    have hfind : a.files.find [] = .ok .directory := by
      simp [FileTree.find, FileTree.block?, FileTree.blockFrom, hflat.top]
    rw [FileTree.children, hfind]
    exact ⟨_, rfl⟩
  obtain ⟨hmem, hdistinct⟩ := FileTree.children_spec hl
  let found := (l.filter (·.2 = .directory)).filterMap (idOfName? ·.1)
  refine ⟨found.mergeSort, by rw [checkpointIds, h.base, hl]; rfl, ?_, fun s hs => ?_⟩
  · have hnumber : ∀ x ∈ l.filter (·.2 = .directory), ∀ id, idOfName? x.1 = some id →
        x.1 = directoryName id := by
      rintro ⟨name, n⟩ hx id hid
      obtain ⟨hx, hn⟩ := List.mem_filter.1 hx
      obtain rfl : n = .directory := by simpa using hn
      exact h.directoryName_of_child hl hx hid
    have hnodup : found.Nodup := by
      refine List.pairwise_filterMap.2 ((hdistinct.filter _).imp_of_mem ?_)
      rintro x y hx hy hne i hi j hj rfl
      exact hne ((hnumber x hx i hi).trans (hnumber y hy i hj).symm)
    have hsorted : found.mergeSort.Pairwise fun i j => decide (i ≤ j) = true := by
      refine List.pairwise_mergeSort (fun i j k hij hjk => ?_) (fun i j => ?_) found
      · rw [decide_eq_true_iff] at hij hjk ⊢
        exact UInt64.le_trans hij hjk
      · simpa using UInt64.le_total i j
    refine (hsorted.and ((List.mergeSort_perm _ _).nodup_iff.2 hnodup)).imp fun hij => ?_
    exact UInt64.lt_of_le_of_ne (of_decide_eq_true hij.1) hij.2
  · have hdir : directoryName s.id ∈ dirs := by
      refine hflat.parent (place .manifest s) ?_
      rw [hmanifests, Option.isSome_map]
      exact hs
    rw [List.mem_mergeSort]
    refine List.mem_filterMap.2 ⟨(directoryName s.id, .directory), ?_, idOfName?_directoryName s.id⟩
    exact List.mem_filter.2 ⟨(hmem _ _).2 (hflat.directory _ hdir), by simp⟩

theorem Mirrors.list_eq (h : Mirrors a m) (p : UInt32) : a.list p = .ok (m.list p) := by
  obtain ⟨ids, hids, hascending, hmem⟩ := h.exists_checkpointIds
  rw [list, hids]
  refine congrArg Except.ok ?_
  refine (hascending.filter _).eq_of_mem_iff (m.pairwise_list p) fun id => ?_
  rw [List.mem_filter, h.isFile_manifestPath, MemoryArchive.mem_list]
  exact and_iff_right_of_imp fun hs => hmem ⟨id, p⟩ hs

/-! ### Removing -/

/-- What a directory mirrors that has no files of a share. -/
theorem mirrors_erase {t : FileTree} {dirs : Set String} {files : Place → Option Bytes} {s : Share}
    (hbase : a.base = []) (hflat : t.Flat dirs files)
    (hnamed : ∀ d ∈ dirs, ∃ id, d = directoryName id)
    (hstates : ∀ r, files (place .state r) = if r = s then none else m.states[r]?)
    (hmanifests : ∀ r, files (place .manifest r) =
      if r = s then none else m.manifests[r]?.map encode) :
    Mirrors { a with files := t } (m.erase s) := by
  refine ⟨hbase, dirs, files, hflat, hnamed, fun r => ?_, fun r => ?_⟩
  · rw [hstates, MemoryArchive.erase, Std.ExtTreeMap.getElem?_erase]
    by_cases hr : r = s
    · simp [hr]
    · simp [hr, Ne.symm hr]
  · rw [hmanifests, MemoryArchive.erase, Std.ExtTreeMap.getElem?_erase]
    by_cases hr : r = s
    · simp [hr]
    · simp [hr, Ne.symm hr]

theorem Mirrors.exists_flat (h : Mirrors a m) {s : Share} (hs : (m.manifests[s]?).isSome) :
    ∃ dirs files, a.files.Flat dirs files ∧ directoryName s.id ∈ dirs ∧
      (∀ d ∈ dirs, ∃ id, d = directoryName id) ∧
      (∀ r, files (place .state r) = m.states[r]?) ∧
      ∀ r, files (place .manifest r) = m.manifests[r]?.map encode := by
  obtain ⟨dirs, files, hflat, hnamed, hstates, hmanifests⟩ := h.laid
  refine ⟨dirs, files, hflat, hflat.parent (place .manifest s) ?_, hnamed, hstates, hmanifests⟩
  rw [hmanifests, Option.isSome_map]
  exact hs

/-- The manifest and the state of a saved checkpoint are removed. -/
theorem Mirrors.run_erase (h : Mirrors a m) {s : Share} (hs : (m.manifests[s]?).isSome) :
    ∃ t, (a.eraseSteps s).forM FileStep.perform a.files = .ok () t ∧
      Mirrors { a with files := t } (m.erase s) := by
  obtain ⟨dirs, files, hflat, hdir, hnamed, hstates, hmanifests⟩ := h.exists_flat hs
  obtain ⟨t, hrun, files', hflat', hfiles'⟩ :=
    exists_run_eraseSteps (x := place .manifest s) (y := place .state s) hflat hdir
  rw [eraseSteps_eq h.base]
  refine ⟨t, hrun, mirrors_erase h.base hflat' (fun d hd => hnamed d hd.1) (fun r => ?_)
    fun r => ?_⟩
  · simp [hfiles', hstates]
  · simp [hfiles', hmanifests]

theorem Mirrors.run_eraseAll {p : UInt32} {ids : List UInt64} (h : Mirrors a m)
    (hids : m.Holds p ids) :
    ∃ t, (ids.flatMap fun id => a.eraseSteps ⟨id, p⟩).forM FileStep.perform a.files = .ok () t ∧
      Mirrors { a with files := t } (ids.foldl (fun m id => m.erase ⟨id, p⟩) m) := by
  induction ids generalizing a m with
  | nil => exact ⟨a.files, rfl, h⟩
  | cons id ids ih =>
    obtain ⟨t, hrun, h'⟩ := h.run_erase (hids.manifest id (by simp))
    obtain ⟨t', hrest, h''⟩ := ih h' hids.erase
    refine ⟨t', ?_, h''⟩
    rw [List.flatMap_cons, Command.run_forM_append, hrun]
    exact hrest

/-- The steps of a purge. -/
def purgeSteps (a : DirectoryArchive) (p : UInt32) (keep : ℕ) : List FileStep :=
  match a.list p with
  | .ok ids => (ids.take (ids.length - keep)).flatMap fun id => a.eraseSteps ⟨id, p⟩
  | .error _ => []

theorem Mirrors.purgeSteps_eq (h : Mirrors a m) (p : UInt32) (keep : ℕ) :
    a.purgeSteps p keep = (m.stale p keep).flatMap fun id => a.eraseSteps ⟨id, p⟩ := by
  rw [purgeSteps, h.list_eq]
  rfl

theorem Mirrors.run_purge (h : Mirrors a m) (p : UInt32) (keep : ℕ) :
    ∃ t, (a.purgeSteps p keep).forM FileStep.perform a.files = .ok () t ∧
      Mirrors { a with files := t } (m.purge p keep) := by
  rw [h.purgeSteps_eq]
  exact h.run_eraseAll (m.holds_stale p keep)

theorem forM_performAll (f : UInt64 → List FileStep) (ids : List UInt64) :
    ids.forM (fun id => performAll (f id)) = performAll (ids.flatMap f) := by
  induction ids with
  | nil => rfl
  | cons id ids ih =>
    funext a
    show (performAll (f id) >>= fun _ => ids.forM fun id => performAll (f id)) a = _
    rw [ih, List.flatMap_cons, Command.run_bind]
    simp only [performAll, Command.focus, Command.run_forM_append]
    cases (f id).forM FileStep.perform a.files <;> rfl

theorem Mirrors.purge_eq (h : Mirrors a m) (p : UInt32) (keep : ℕ) :
    DirectoryArchive.purge p keep a = performAll (a.purgeSteps p keep) a := by
  unfold DirectoryArchive.purge
  rw [Command.run_get_bind, Command.run_bind, h.list_eq p, h.purgeSteps_eq, ← forM_performAll]
  rfl

theorem Mirrors.purge (h : Mirrors a m) (p : UInt32) (keep : ℕ) :
    ∃ a', DirectoryArchive.purge p keep a = .ok () a' ∧ Mirrors a' (m.purge p keep) := by
  obtain ⟨t, hrun, h'⟩ := h.run_purge p keep
  exact ⟨_, (h.purge_eq p keep).trans (performAll_eq hrun), h'⟩

end DirectoryArchive

end Tidemark
