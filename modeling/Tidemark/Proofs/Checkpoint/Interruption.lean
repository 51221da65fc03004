import Tidemark.Proofs.Checkpoint.Recovery

/-! Interruption. A checkpoint taken in a directory is a list of steps, and an interruption leaves
what the first of them did. A state is saved before its manifest and removed after it, so wherever
the steps are cut, every manifest stands beside its state. -/

namespace Tidemark

namespace FileStep

/-- What steps leave that are interrupted. A file that was being written may hold anything. -/
inductive Leaves : List FileStep → FileTree → FileTree → Prop
  | stop (steps : List FileStep) (t : FileTree) : Leaves steps t t
  | torn {file : Path} {wreck : Bytes} {t t' : FileTree} (content : Bytes) (steps : List FileStep)
      (h : apply t (.write file wreck) = .ok t') : Leaves (.write file content :: steps) t t'
  | step {s : FileStep} {steps : List FileStep} {t t₁ t' : FileTree} (h : apply t s = .ok t₁)
      (rest : Leaves steps t₁ t') : Leaves (s :: steps) t t'

variable {xs ys : List FileStep} {t t' : FileTree}

/-- Steps may be interrupted after any of them. -/
theorem Leaves.of_run (h : xs.forM perform t = .ok () t') (ys : List FileStep) :
    Leaves (xs ++ ys) t t' := by
  induction xs generalizing t with
  | nil =>
    obtain rfl := (EStateM.Result.ok.inj h).2
    exact .stop ys _
  | cons s xs ih =>
    cases happly : apply t s with
    | ok t₁ =>
      rw [Command.run_forM_cons (run_perform happly)] at h
      exact .step happly (ih h)
    | error e =>
      have hrun : (s :: xs).forM perform t = .error e t := by
        show (perform s >>= fun _ => xs.forM perform) t = _
        rw [Command.run_bind, perform, happly]
      rw [hrun] at h
      cases h

/-- Steps are interrupted before the others begin or in the middle of the others. -/
theorem Leaves.of_append (h : Leaves (xs ++ ys) t t') :
    Leaves xs t t' ∨ ∃ t₁, xs.forM perform t = .ok () t₁ ∧ Leaves ys t₁ t' := by
  induction xs generalizing t with
  | nil => exact .inr ⟨_, rfl, h⟩
  | cons s xs ih =>
    cases h with
    | stop => exact .inl (.stop _ _)
    | torn content _ htorn => exact .inl (.torn content xs htorn)
    | step happly hrest =>
      rcases ih hrest with hfirst | ⟨t₂, hrun, hthen⟩
      · exact .inl (.step happly hfirst)
      · exact .inr ⟨t₂, (Command.run_forM_cons (run_perform happly) xs).trans hrun, hthen⟩

end FileStep

namespace MemoryArchive

/-- Manifests of a partition may have been removed, with or without their states. -/
def Thinned (p : UInt32) (m m' : MemoryArchive) : Prop :=
  ∀ s : Share, (m'.manifests[s]? = m.manifests[s]? ∧ m'.states[s]? = m.states[s]?) ∨
    (s.partition = p ∧ m'.manifests[s]? = none)

variable {p : UInt32} {m m₁ m₂ : MemoryArchive}

theorem Thinned.refl (p : UInt32) (m : MemoryArchive) : Thinned p m m := fun _ => .inl ⟨rfl, rfl⟩

theorem Thinned.trans (h₁ : Thinned p m m₁) (h₂ : Thinned p m₁ m₂) : Thinned p m m₂ := by
  intro s
  rcases h₂ s with ⟨hmanifest, hstate⟩ | hgone
  · rw [hmanifest, hstate]
    exact h₁ s
  · exact .inr hgone

theorem thinned_erase (m : MemoryArchive) (s : Share) : Thinned s.partition m (m.erase s) := by
  intro r
  simp only [erase, Std.ExtTreeMap.getElem?_erase, Std.compare_eq_iff_eq]
  by_cases hr : s = r
  · exact .inr ⟨by rw [hr], if_pos hr⟩
  · exact .inl ⟨if_neg hr, if_neg hr⟩

/-- The manifest of a share is removed and its state is still there. -/
def eraseManifest (m : MemoryArchive) (s : Share) : MemoryArchive :=
  { m with manifests := m.manifests.erase s }

theorem thinned_eraseManifest (m : MemoryArchive) (s : Share) :
    Thinned s.partition m (m.eraseManifest s) := by
  intro r
  simp only [eraseManifest, Std.ExtTreeMap.getElem?_erase, Std.compare_eq_iff_eq]
  by_cases hr : s = r
  · exact .inr ⟨by rw [hr], if_pos hr⟩
  · exact .inl ⟨if_neg hr, trivial⟩

/-- Every manifest has its state. -/
def Backed (m : MemoryArchive) : Prop :=
  ∀ s : Share, (m.manifests[s]?).isSome → (m.states[s]?).isSome

theorem Backed.thinned (h : m.Backed) (hthin : Thinned p m m₁) : m₁.Backed := by
  intro s hs
  rcases hthin s with ⟨hmanifest, hstate⟩ | ⟨_, hgone⟩
  · rw [hstate]
    exact h s (hmanifest ▸ hs)
  · rw [hgone] at hs
    cases hs

theorem Backed.saveState (h : m.Backed) (s : Share) (state : Bytes) :
    (m.saveState s state).Backed := by
  intro r hr
  rw [MemoryArchive.saveState, Std.ExtTreeMap.getElem?_insert]
  split
  · rfl
  · exact h r hr

theorem Backed.save (h : m.Backed) (n : Manifest) (state : Bytes) :
    ((m.saveState n.share state).saveManifest n).Backed := by
  intro r hr
  by_cases hn : n.share = r
  · simp [MemoryArchive.saveManifest, MemoryArchive.saveState, hn]
  · refine h.saveState n.share state r ?_
    simpa [saveManifest, hn] using hr

/-- How far the saving of a checkpoint had come: not yet to its state, to the state, or to the
manifest. -/
inductive Saving (m : MemoryArchive) (n : Manifest) (state : Bytes) : MemoryArchive → Prop
  | nothing : Saving m n state m
  | state : Saving m n state (m.saveState n.share state)
  | manifest : Saving m n state ((m.saveState n.share state).saveManifest n)

variable {n : Manifest} {state : Bytes}

theorem Backed.saving (h : m.Backed) (hsaving : Saving m n state m₁) : m₁.Backed := by
  cases hsaving with
  | nothing => exact h
  | state => exact h.saveState n.share state
  | manifest => exact h.save n state

/-- Nothing is saved for another share. -/
theorem Saving.of_ne (h : Saving m n state m₁) {s : Share} (hs : s ≠ n.share) :
    m₁.manifests[s]? = m.manifests[s]? ∧ m₁.states[s]? = m.states[s]? := by
  cases h <;>
    simp [saveManifest, saveState, Std.ExtTreeMap.getElem?_insert, Ne.symm hs]

/-- A share without a manifest gets one after its state. -/
theorem Saving.own (h : Saving m n state m₁) (hnone : m.manifests[n.share]? = none)
    (hsome : (m₁.manifests[n.share]?).isSome) :
    m₁.manifests[n.share]? = some n ∧ m₁.states[n.share]? = some state := by
  cases h with
  | nothing | state =>
    replace hsome : (m.manifests[n.share]?).isSome := hsome
    rw [hnone] at hsome
    cases hsome
  | manifest => simp [saveManifest, saveState]

/-- The checkpoint `n` was being saved, and then older checkpoints of the partition may have been
removed. -/
def Cut (m : MemoryArchive) (n : Manifest) (state : Bytes) (m' : MemoryArchive) : Prop :=
  ∃ m₁, Saving m n state m₁ ∧ Thinned n.partition m₁ m'

theorem Backed.cut (h : m.Backed) (hcut : Cut m n state m₁) : m₁.Backed := by
  obtain ⟨m₂, hsaving, hthin⟩ := hcut
  exact (h.saving hsaving).thinned hthin

theorem Cut.of_ne (h : Cut m n state m₁) {s : Share} (hs : s ≠ n.share) :
    (m₁.manifests[s]? = m.manifests[s]? ∧ m₁.states[s]? = m.states[s]?) ∨
      (s.partition = n.partition ∧ m₁.manifests[s]? = none) := by
  obtain ⟨m₂, hsaving, hthin⟩ := h
  obtain ⟨hmanifest, hstate⟩ := hsaving.of_ne hs
  rw [← hmanifest, ← hstate]
  exact hthin s

/-- The checkpoints of another partition stay. -/
theorem Cut.list_of_ne (h : Cut m n state m₁) {q : UInt32} (hq : q ≠ n.partition) :
    m₁.list q = m.list q := by
  refine (m₁.pairwise_list q).eq_of_mem_iff (m.pairwise_list q) fun id => ?_
  rw [mem_list, mem_list]
  rcases h.of_ne (s := ⟨id, q⟩) fun he => hq (congrArg Share.partition he) with
    ⟨hmanifest, _⟩ | ⟨hown, _⟩
  · rw [hmanifest]
  · exact absurd hown hq

theorem Cut.own (h : Cut m n state m₁) (hnone : m.manifests[n.share]? = none)
    (hsome : (m₁.manifests[n.share]?).isSome) :
    m₁.manifests[n.share]? = some n ∧ m₁.states[n.share]? = some state := by
  obtain ⟨m₂, hsaving, hthin⟩ := h
  rcases hthin n.share with ⟨hmanifest, hstate⟩ | ⟨_, hgone⟩
  · rw [hmanifest, hstate]
    exact hsaving.own hnone (hmanifest ▸ hsome)
  · rw [hgone] at hsome
    cases hsome

end MemoryArchive

namespace DirectoryArchive

open FileStep

section Steps

variable {t t' : FileTree} {dirs : Set String} {files : Place → Option Bytes}

/-- A file is written in full, or only its draft is touched. -/
theorem leaves_writeSteps (h : t.Flat dirs files) (x : Place) {content : Bytes}
    (hl : Leaves (writeSteps x.path content) t t') :
    (writeSteps x.path content).forM perform t = .ok () t' ∨
      ∃ dirs' ⊆ insert x.1 dirs, ∃ files', t'.Flat dirs' files' ∧
        ∀ y ≠ draft x, files' y = files y := by
  rw [writeSteps_path] at hl ⊢
  obtain ⟨t₁, h₁, hflat₁⟩ := exists_makeDirectories h x.1
  cases hl with
  | stop => exact .inr ⟨dirs, Set.subset_insert _ _, files, h, fun _ _ => rfl⟩
  | step hmake hl =>
    obtain rfl := Except.ok.inj (h₁.symm.trans hmake)
    cases hl with
    | stop => exact .inr ⟨_, subset_rfl, files, hflat₁, fun _ _ => rfl⟩
    | @torn _ wreck _ _ _ _ hwrite =>
      obtain ⟨t₂, h₂, hflat₂⟩ := exists_write (x := draft x) hflat₁ (.inl rfl) wreck
      obtain rfl := Except.ok.inj (h₂.symm.trans hwrite)
      exact .inr ⟨_, subset_rfl, _, hflat₂, fun y hy => Function.update_of_ne hy ..⟩
    | step hwrite hl =>
      obtain ⟨t₂, h₂, hflat₂⟩ := exists_write (x := draft x) hflat₁ (.inl rfl) content
      obtain rfl := Except.ok.inj (h₂.symm.trans hwrite)
      cases hl with
      | stop => exact .inr ⟨_, subset_rfl, _, hflat₂, fun y hy => Function.update_of_ne hy ..⟩
      | step hrename hl =>
        cases hl with
        | stop =>
          left
          rw [Command.run_forM_cons (run_perform hmake), Command.run_forM_cons (run_perform hwrite),
            Command.run_forM_cons (run_perform hrename)]
          rfl

/-- The files of a share are removed one after the other. -/
theorem leaves_eraseSteps (h : t.Flat dirs files) {x y : Place} (hx : x.1 ∈ dirs)
    (hl : Leaves [.remove x.path, .remove y.path, .removeIfEmpty [x.1]] t t') :
    ∃ dirs' ⊆ dirs, ∃ files', t'.Flat dirs' files' ∧ ((∀ z, files' z = files z) ∨
      (∀ z, files' z = if z = x then none else files z) ∨
        ∀ z, files' z = if z = x ∨ z = y then none else files z) := by
  obtain ⟨t₁, h₁, hflat₁⟩ := exists_remove h x
  obtain ⟨t₂, h₂, hflat₂⟩ := exists_remove hflat₁ y
  obtain ⟨t₃, h₃, hflat₃⟩ := exists_removeIfEmpty hflat₂ hx
  have hboth : ∀ z, Function.update (Function.update files x none) y none z =
      if z = x ∨ z = y then none else files z := by
    intro z
    simp only [Function.update_apply]
    split_ifs <;> first | rfl | tauto
  cases hl with
  | stop => exact ⟨dirs, subset_rfl, files, h, .inl fun _ => rfl⟩
  | step hfirst hl =>
    obtain rfl := Except.ok.inj (h₁.symm.trans hfirst)
    cases hl with
    | stop => exact ⟨dirs, subset_rfl, _, hflat₁, .inr (.inl fun z => Function.update_apply ..)⟩
    | step hsecond hl =>
      obtain rfl := Except.ok.inj (h₂.symm.trans hsecond)
      cases hl with
      | stop => exact ⟨dirs, subset_rfl, _, hflat₂, .inr (.inr hboth)⟩
      | step hthird hl =>
        obtain rfl := Except.ok.inj (h₃.symm.trans hthird)
        cases hl with
        | stop => exact ⟨_, Set.sep_subset _ _, _, hflat₃, .inr (.inr hboth)⟩

end Steps

open MemoryArchive

variable {a : DirectoryArchive} {m : MemoryArchive} {t : FileTree}

theorem Mirrors.leaves_write (h : Mirrors a m) {content : Bytes} {k l : Part} {s : Share}
    (hdraft : draft (place k s) = place l s) (hstate : l ≠ .state) (hmanifest : l ≠ .manifest)
    (hl : Leaves (writeSteps (place k s).path content) a.files t) :
    (writeSteps (place k s).path content).forM perform a.files = .ok () t ∨
      Mirrors { a with files := t } m := by
  obtain ⟨dirs, files, hflat, hnamed, hstates, hmanifests⟩ := h.laid
  refine (leaves_writeSteps hflat (place k s) hl).imp_right ?_
  rintro ⟨dirs', hsub, files', hflat', hfiles'⟩
  rw [hdraft] at hfiles'
  refine ⟨h.base, dirs', files', hflat', fun d hd => ?_, fun r => ?_, fun r => ?_⟩
  · rcases hsub hd with rfl | hd
    · exact ⟨s.id, rfl⟩
    · exact hnamed d hd
  · rw [hfiles' _ fun he => hstate (place_inj.1 he).1.symm, hstates]
  · rw [hfiles' _ fun he => hmanifest (place_inj.1 he).1.symm, hmanifests]

theorem Mirrors.leaves_saveState (h : Mirrors a m) {s : Share} {state : Bytes}
    (hl : Leaves (a.saveStateSteps s state) a.files t) :
    (a.saveStateSteps s state).forM perform a.files = .ok () t ∨
      Mirrors { a with files := t } m := by
  rw [saveStateSteps, statePath_eq h.base] at hl ⊢
  exact h.leaves_write (draft_state s) (by simp) (by simp) hl

theorem Mirrors.leaves_saveManifest (h : Mirrors a m) {n : Manifest}
    (hl : Leaves (a.saveManifestSteps n) a.files t) :
    (a.saveManifestSteps n).forM perform a.files = .ok () t ∨
      Mirrors { a with files := t } m := by
  rw [saveManifestSteps, manifestPath_eq h.base] at hl ⊢
  exact h.leaves_write (draft_manifest n.share) (by simp) (by simp) hl

/-- A share that is being removed loses its manifest before its state. -/
theorem Mirrors.leaves_erase (h : Mirrors a m) {s : Share} (hs : (m.manifests[s]?).isSome)
    (hl : Leaves (a.eraseSteps s) a.files t) :
    ∃ m', Thinned s.partition m m' ∧ Mirrors { a with files := t } m' := by
  obtain ⟨dirs, files, hflat, hdir, hnamed, hstates, hmanifests⟩ := h.exists_flat hs
  rw [eraseSteps_eq h.base] at hl
  obtain ⟨dirs', hsub, files', hflat', hfiles'⟩ := leaves_eraseSteps hflat hdir hl
  have hnamed' : ∀ d ∈ dirs', ∃ id, d = directoryName id := fun d hd => hnamed d (hsub hd)
  rcases hfiles' with hfiles' | hfiles' | hfiles'
  · exact ⟨m, .refl _ m, h.base, dirs', files', hflat', hnamed', fun r => by rw [hfiles', hstates],
      fun r => by rw [hfiles', hmanifests]⟩
  · refine ⟨_, m.thinned_eraseManifest s, h.base, dirs', files', hflat', hnamed', fun r => ?_,
      fun r => ?_⟩
    · simp [hfiles', hstates, eraseManifest]
    · rw [hfiles', hmanifests, eraseManifest, Std.ExtTreeMap.getElem?_erase]
      by_cases hr : r = s
      · simp [hr]
      · simp [hr, Ne.symm hr]
  · refine ⟨_, m.thinned_erase s, mirrors_erase h.base hflat' hnamed' (fun r => ?_) fun r => ?_⟩
    · simp [hfiles', hstates]
    · simp [hfiles', hmanifests]

theorem Mirrors.leaves_eraseAll {p : UInt32} {ids : List UInt64} (h : Mirrors a m)
    (hids : m.Holds p ids)
    (hl : Leaves (ids.flatMap fun id => a.eraseSteps ⟨id, p⟩) a.files t) :
    ∃ m', Thinned p m m' ∧ Mirrors { a with files := t } m' := by
  induction ids generalizing a m with
  | nil =>
    cases hl with
    | stop => exact ⟨m, .refl p m, h⟩
  | cons id ids ih =>
    have hfirst := hids.manifest id (by simp)
    rcases hl.of_append with hl | ⟨t₁, hrun, hl⟩
    · exact h.leaves_erase hfirst hl
    · obtain ⟨t₁', hrun', h₁⟩ := h.run_erase hfirst
      obtain rfl := (EStateM.Result.ok.inj (hrun'.symm.trans hrun)).2
      obtain ⟨m', hthin, h'⟩ := ih h₁ hids.erase hl
      exact ⟨m', (m.thinned_erase ⟨id, p⟩).trans hthin, h'⟩

/-- The steps that save a checkpoint. -/
def saveSteps (a : DirectoryArchive) (n : Manifest) (state : Bytes) : List FileStep :=
  a.saveStateSteps n.share state ++ a.saveManifestSteps n

/-- The steps that save a checkpoint and remove older ones. -/
def checkpointSteps (a : DirectoryArchive) (n : Manifest) (state : Bytes) (keep : ℕ) :
    List FileStep :=
  a.saveSteps n state ++
    match (a.saveSteps n state).forM perform a.files with
    | .ok _ files => purgeSteps { a with files } n.partition keep
    | .error _ _ => []

variable {n : Manifest} {state : Bytes} {keep : ℕ}

theorem checkpointSteps_eq (h : (a.saveSteps n state).forM perform a.files = .ok () t) :
    a.checkpointSteps n state keep =
      a.saveSteps n state ++ purgeSteps { a with files := t } n.partition keep := by
  rw [checkpointSteps, h]

theorem Mirrors.run_save (h : Mirrors a m) (n : Manifest) (state : Bytes) :
    ∃ t, (a.saveSteps n state).forM perform a.files = .ok () t ∧
      Mirrors { a with files := t } ((m.saveState n.share state).saveManifest n) := by
  obtain ⟨t₁, hrun₁, h₁⟩ := h.run_saveState n.share state
  obtain ⟨t₂, hrun₂, h₂⟩ := h₁.run_saveManifest n
  refine ⟨t₂, ?_, h₂⟩
  rw [saveSteps, Command.run_forM_append, hrun₁]
  exact hrun₂

theorem Mirrors.leaves_save (h : Mirrors a m) (hl : Leaves (a.saveSteps n state) a.files t) :
    ∃ m₁, Saving m n state m₁ ∧ Mirrors { a with files := t } m₁ := by
  obtain ⟨t₁, hrun₁, h₁⟩ := h.run_saveState n.share state
  obtain ⟨t₂, hrun₂, h₂⟩ := h₁.run_saveManifest n
  rcases hl.of_append with hl | ⟨t₁', hrun, hl⟩
  · rcases h.leaves_saveState hl with hrun | h'
    · obtain rfl := (EStateM.Result.ok.inj (hrun₁.symm.trans hrun)).2
      exact ⟨_, .state, h₁⟩
    · exact ⟨m, .nothing, h'⟩
  · obtain rfl := (EStateM.Result.ok.inj (hrun₁.symm.trans hrun)).2
    rcases h₁.leaves_saveManifest hl with hrun | h'
    · obtain rfl := (EStateM.Result.ok.inj (hrun₂.symm.trans hrun)).2
      exact ⟨_, .manifest, h₂⟩
    · exact ⟨_, .state, h'⟩

/-- Wherever a checkpoint is cut, it was saved up to some point, and then older checkpoints may have
been removed. -/
theorem Mirrors.leaves_checkpoint (h : Mirrors a m)
    (hl : Leaves (a.checkpointSteps n state keep) a.files t) :
    ∃ m', Cut m n state m' ∧ Mirrors { a with files := t } m' := by
  obtain ⟨t₁, hrun₁, h₁⟩ := h.run_save n state
  rw [checkpointSteps_eq hrun₁] at hl
  rcases hl.of_append with hl | ⟨t₁', hrun, hl⟩
  · obtain ⟨m₁, hsaving, h'⟩ := h.leaves_save hl
    exact ⟨m₁, ⟨m₁, hsaving, .refl _ _⟩, h'⟩
  · obtain rfl := (EStateM.Result.ok.inj (hrun₁.symm.trans hrun)).2
    rw [h₁.purgeSteps_eq] at hl
    obtain ⟨m', hthin, h'⟩ := h₁.leaves_eraseAll (MemoryArchive.holds_stale _ _ _) hl
    exact ⟨m', ⟨_, .manifest, hthin⟩, h'⟩

end DirectoryArchive

theorem Archive.change_directory {f : MemoryArchive → MemoryArchive}
    {c : Command DirectoryArchive Unit} {a a' : DirectoryArchive} (h : c a = .ok () a') :
    change f c (.directory a) = .ok () (.directory a') := by
  rw [change, h]

namespace Station

open DirectoryArchive FileStep

variable {τ : Type} {a : DirectoryArchive} {m : MemoryArchive} {files : FileTree}

/-- The steps on files that a barrier takes. One that is refused takes none. -/
def fileSteps (t : Target τ) (b : Barrier) (c : Coordinator) (a : DirectoryArchive) (target : τ) :
    List FileStep :=
  match offer t b ⟨c, .directory a, target⟩ with
  | .ok state s => a.checkpointSteps (manifestOf t b c.partition s.target state) state c.retained
  | .error _ _ => []

theorem save_directory (h : a.Mirrors m) (t : Target τ) (b : Barrier) (c : Coordinator)
    (target : τ) (state : Bytes) :
    let n := manifestOf t b c.partition target state
    ∃ files, (a.checkpointSteps n state c.retained).forM perform a.files = .ok () files ∧
      save t b state ⟨c, .directory a, target⟩ =
        .ok n ⟨{ c with last := some b.id }, .directory { a with files }, target⟩ := by
  intro n
  obtain ⟨t₁, hrun₁, h₁⟩ := h.run_saveState n.share state
  obtain ⟨t₂, hrun₂, h₂⟩ := h₁.run_saveManifest n
  obtain ⟨t₃, hrun₃, _⟩ := h₂.run_purge c.partition c.retained
  have hsave : (a.saveSteps n state).forM perform a.files = .ok () t₂ := by
    rw [saveSteps, Command.run_forM_append, hrun₁]
    exact hrun₂
  refine ⟨t₃, ?_, ?_⟩
  · rw [checkpointSteps_eq hsave, Command.run_forM_append, hsave]
    exact hrun₃
  · have hpurge := (h₂.purge_eq c.partition c.retained).trans (performAll_eq hrun₃)
    exact save_eq (Archive.change_directory (saveState_eq hrun₁))
      (Archive.change_directory (saveManifest_eq hrun₂)) (Archive.change_directory hpurge)

/-- A barrier that is not interrupted takes all its steps. -/
theorem run_fileSteps (h : a.Mirrors m) (t : Target τ) (b : Barrier) (c : Coordinator)
    (target : τ) : ∃ files, (fileSteps t b c a target).forM perform a.files = .ok () files ∧
      ((takeCheckpoint t b).after ⟨c, .directory a, target⟩).archive =
        .directory { a with files } := by
  rw [takeCheckpoint_eq_bind, Command.after_eq, Command.run_bind, fileSteps]
  obtain ⟨_, e, target', hoffer⟩ | ⟨_, _, state, target', _, _, hoffer⟩ :=
    offer_cases t b ⟨c, .directory a, target⟩
  · rw [hoffer]
    exact ⟨a.files, rfl, rfl⟩
  · rw [hoffer]
    obtain ⟨files, hrun, hsave⟩ := save_directory h t b c target' state
    refine ⟨files, hrun, ?_⟩
    dsimp only
    rw [hsave]
    rfl

/-- What the archive has when a barrier was interrupted: what it had before, or the checkpoint of
the barrier was being saved. -/
inductive Interrupted (t : Target τ) (b : Barrier) (c : Coordinator) (target : τ)
    (m : MemoryArchive) : MemoryArchive → Prop
  | untouched : Interrupted t b c target m m
  | cut {prepared target' : τ} {state : Bytes} {m' : MemoryArchive}
    (hprepare : t.prepare target = .ok () prepared)
    (hsnapshot : t.snapshot prepared = .ok state target')
    (hcut : m.Cut (manifestOf t b c.partition target' state) state m') :
    Interrupted t b c target m m'

section Interrupted

variable {t : Target τ} {b : Barrier} {c : Coordinator} {target : τ} {m' : MemoryArchive}

theorem Interrupted.backed (h : Interrupted t b c target m m') (hm : m.Backed) : m'.Backed := by
  cases h with
  | untouched => exact hm
  | cut _ _ hcut => exact hm.cut hcut

theorem Interrupted.of_ne (h : Interrupted t b c target m m') {s : Share}
    (hs : s ≠ ⟨b.id, c.partition⟩) :
    (m'.manifests[s]? = m.manifests[s]? ∧ m'.states[s]? = m.states[s]?) ∨
      (s.partition = c.partition ∧ m'.manifests[s]? = none) := by
  cases h with
  | untouched => exact .inl ⟨rfl, rfl⟩
  | cut _ _ hcut => exact hcut.of_ne hs

theorem Interrupted.list_of_ne (h : Interrupted t b c target m m') {p : UInt32}
    (hp : p ≠ c.partition) : m'.list p = m.list p := by
  cases h with
  | untouched => rfl
  | cut _ _ hcut => exact hcut.list_of_ne hp

/-- A checkpoint that is new came from the target. -/
theorem Interrupted.own (h : Interrupted t b c target m m')
    (hold : b.id ∉ m.list c.partition) (hnew : b.id ∈ m'.list c.partition) :
    ∃ prepared state target', t.prepare target = .ok () prepared ∧
      t.snapshot prepared = .ok state target' ∧
      m'.manifests[(⟨b.id, c.partition⟩ : Share)]? =
        some (manifestOf t b c.partition target' state) ∧
      m'.states[(⟨b.id, c.partition⟩ : Share)]? = some state := by
  cases h with
  | untouched => exact absurd hnew hold
  | @cut prepared target' state _ hprepare hsnapshot hcut =>
    rw [MemoryArchive.mem_list, Option.not_isSome_iff_eq_none] at hold
    exact ⟨prepared, state, target', hprepare, hsnapshot,
      hcut.own hold (MemoryArchive.mem_list.1 hnew)⟩

end Interrupted

theorem leaves_fileSteps (h : a.Mirrors m) (t : Target τ) (b : Barrier) (c : Coordinator)
    (target : τ) (hcut : Leaves (fileSteps t b c a target) a.files files) :
    ∃ m', Mirrors { a with files } m' ∧ Interrupted t b c target m m' := by
  rw [fileSteps] at hcut
  obtain ⟨_, e, target', hoffer⟩ | ⟨_, prepared, state, target', hprepare, hsnapshot, hoffer⟩ :=
    offer_cases t b ⟨c, .directory a, target⟩
  · rw [hoffer] at hcut
    cases hcut with
    | stop => exact ⟨m, h, .untouched⟩
  · rw [hoffer] at hcut
    obtain ⟨m', hcut, h'⟩ := h.leaves_checkpoint hcut
    exact ⟨m', h', .cut hprepare hsnapshot hcut⟩

end Station

namespace DirectoryArchive

/-- The directories that barriers leave, each of them complete or interrupted, of any stations. -/
inductive Wrecked : DirectoryArchive → Prop
  | empty (top : String) : Wrecked ⟨.empty top, []⟩
  | barrier {τ : Type} (t : Target τ) (b : Barrier) (c : Coordinator) (target : τ)
      {a : DirectoryArchive} {files : FileTree} (h : Wrecked a)
      (hcut : FileStep.Leaves (Station.fileSteps t b c a target) a.files files) :
      Wrecked { a with files }

/-- In such a directory every manifest has its state. -/
theorem Wrecked.exists_mirrors {a : DirectoryArchive} (h : a.Wrecked) :
    ∃ m, a.Mirrors m ∧ m.Backed := by
  induction h with
  | empty top => exact ⟨{}, mirrors_empty top, fun s hs => by simp at hs⟩
  | barrier t b c target _ hcut ih =>
    obtain ⟨m, hm, hbacked⟩ := ih
    obtain ⟨m', h', hleft⟩ := Station.leaves_fileSteps hm t b c target hcut
    exact ⟨m', h', hleft.backed hbacked⟩

/-- The checkpoints with a manifest are listed. -/
theorem Wrecked.mem_list {a : DirectoryArchive} (h : a.Wrecked) {p : UInt32} {ids : List UInt64}
    (hlist : a.list p = .ok ids) (id : UInt64) :
    id ∈ ids ↔ (a.loadManifest ⟨id, p⟩).toOption.isSome := by
  obtain ⟨m, hm, _⟩ := h.exists_mirrors
  obtain rfl := Except.ok.inj ((hm.list_eq p).symm.trans hlist)
  rw [hm.loadManifest, MemoryArchive.mem_list]

end DirectoryArchive

namespace Station

open DirectoryArchive FileStep

variable {τ : Type}

/-- Wherever a barrier is interrupted, and whatever earlier interruptions had left, each listed
checkpoint has its manifest and its state; a checkpoint other than the barrier's own has those that
it had before, and the barrier's own, when it is new, those of the barrier. -/
theorem usable_after_interruption (t : Target τ) (b : Barrier) (c : Coordinator) (target : τ)
    {a : DirectoryArchive} {files : FileTree} (hwrecked : a.Wrecked)
    (hcut : Leaves (fileSteps t b c a target) a.files files) :
    let a' : DirectoryArchive := { a with files }
    (∃ done, (fileSteps t b c a target).forM perform a.files = .ok () done ∧
      ((takeCheckpoint t b).after ⟨c, .directory a, target⟩).archive =
        .directory { a with files := done }) ∧
    ∃ old new : UInt32 → List UInt64,
      (∀ p, a.list p = .ok (old p)) ∧ (∀ p, a'.list p = .ok (new p)) ∧
      (∀ p ≠ c.partition, new p = old p) ∧
      (∀ p, ∀ id ∈ new p, ∃ n state, a'.loadManifest ⟨id, p⟩ = .ok n ∧
        a'.loadState ⟨id, p⟩ = .ok state ∧
        ((⟨id, p⟩ : Share) ≠ ⟨b.id, c.partition⟩ → id ∈ old p ∧
          a.loadManifest ⟨id, p⟩ = .ok n ∧ a.loadState ⟨id, p⟩ = .ok state)) ∧
      (b.id ∉ old c.partition → b.id ∈ new c.partition →
        ∃ prepared state target', t.prepare target = .ok () prepared ∧
          t.snapshot prepared = .ok state target' ∧
          a'.loadManifest ⟨b.id, c.partition⟩ = .ok (manifestOf t b c.partition target' state) ∧
          a'.loadState ⟨b.id, c.partition⟩ = .ok state) := by
  intro a'
  obtain ⟨m, hm, hbacked⟩ := hwrecked.exists_mirrors
  obtain ⟨m', hm', hleft⟩ := leaves_fileSteps hm t b c target hcut
  refine ⟨run_fileSteps hm t b c target, m.list, m'.list, hm.list_eq, hm'.list_eq,
    fun p hp => hleft.list_of_ne hp, fun p id hid => ?_, fun hold hnew => ?_⟩
  · have hlisted := MemoryArchive.mem_list.1 hid
    obtain ⟨n, hn⟩ := Option.isSome_iff_exists.1 hlisted
    obtain ⟨state, hstate⟩ := Option.isSome_iff_exists.1 (hleft.backed hbacked ⟨id, p⟩ hlisted)
    refine ⟨n, state, toOption_eq_some.1 ((hm'.loadManifest _).trans hn),
      toOption_eq_some.1 ((hm'.loadState _).trans hstate), fun hne => ?_⟩
    rcases hleft.of_ne hne with ⟨hmanifest, hstate'⟩ | ⟨_, hgone⟩
    · rw [hmanifest] at hn hlisted
      rw [hstate'] at hstate
      exact ⟨MemoryArchive.mem_list.2 hlisted, toOption_eq_some.1 ((hm.loadManifest _).trans hn),
        toOption_eq_some.1 ((hm.loadState _).trans hstate)⟩
    · rw [hgone] at hn
      cases hn
  · obtain ⟨prepared, state, target', hprepare, hsnapshot, hmanifest, hstate⟩ := hleft.own hold hnew
    exact ⟨prepared, state, target', hprepare, hsnapshot,
      toOption_eq_some.1 ((hm'.loadManifest _).trans hmanifest),
      toOption_eq_some.1 ((hm'.loadState _).trans hstate)⟩

/-- Barrier 5 is cut off between its state and its manifest, barrier 7 before it removes
anything. -/
theorem usable_seventh :
    let t := Operator.target Int64 Int64 Int64
    let job := Job.wrappingSums ⟨{ shape := .tumbling 10 }, by decide⟩
    let o := (job.take (.record 0 1 1 7)).after (job.start {})
    let c : Coordinator := { partition := 0, retained := 1 }
    let blank : DirectoryArchive := ⟨.empty "data", []⟩
    let fifth := fileSteps t ⟨5, 0⟩ c blank o
    let a := { blank with files := (fifth.take 4 |>.forM perform).after blank.files }
    let seventh := fileSteps t ⟨7, 0⟩ c a o
    let files := (seventh.take 6 |>.forM perform).after a.files
    a.Wrecked ∧ Leaves seventh a.files files ∧
      ∃ old new, a.list 0 = .ok old ∧ DirectoryArchive.list { a with files } 0 = .ok new ∧
        5 ∉ old ∧ 7 ∈ new ∧ ∃ n state, loadManifest { a with files } ⟨7, 0⟩ = .ok n ∧
          loadState { a with files } ⟨7, 0⟩ = .ok state := by
  intro t job o c blank fifth a seventh files
  have hcut : ∀ (k : ℕ) (steps : List FileStep) (files : FileTree),
      ((steps.take k |>.forM perform).answer files).toOption = some () →
        Leaves steps files ((steps.take k |>.forM perform).after files) := by
    intro k steps files h
    simpa using Leaves.of_run (Command.run_of_answer h) (steps.drop k)
  have hwrecked : a.Wrecked := .barrier t ⟨5, 0⟩ c o (.empty "data")
    (hcut 4 fifth blank.files (by decide +kernel))
  have hleaves : Leaves seventh a.files files := hcut 6 seventh a.files (by decide +kernel)
  obtain ⟨_, old, new, hold, hnew, _, hloads, _⟩ :=
    usable_after_interruption t ⟨7, 0⟩ c o hwrecked hleaves
  have hfifth : 5 ∉ old 0 := by
    rw [hwrecked.mem_list (hold 0)]
    decide +kernel
  have hseventh : 7 ∈ new 0 := by
    rw [(Wrecked.barrier t ⟨7, 0⟩ c o hwrecked hleaves).mem_list (hnew 0)]
    decide +kernel
  obtain ⟨n, state, hmanifest, hstate, _⟩ := hloads 0 7 hseventh
  exact ⟨hwrecked, hleaves, _, _, hold 0, hnew 0, hfifth, hseventh, n, state, hmanifest, hstate⟩

end Station

end Tidemark
