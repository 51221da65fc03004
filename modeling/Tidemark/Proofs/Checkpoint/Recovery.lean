import Tidemark.Checkpoint.Coordinator
import Tidemark.Proofs.Checkpoint.Mirror
import Tidemark.Proofs.Operator.Calls

/-! Recovery from checkpoints. A coordinator looks only at its own last checkpoint, while an archive
keeps and finds the newest of all that were saved there. So a checkpoint that was taken can be
restored as long as no newer ones crowd it out. -/

namespace Tidemark

namespace Archive

/-- The archive has what the archive `m` in memory has. -/
def Has (m : MemoryArchive) : Archive → Prop
  | .memory a => a = m
  | .directory a => a.Mirrors m

variable {a : Archive} {m : MemoryArchive}

theorem Has.change (h : a.Has m) {f : MemoryArchive → MemoryArchive}
    {c : Command DirectoryArchive Unit}
    (hc : ∀ d : DirectoryArchive, d.Mirrors m → ∃ d', c d = .ok () d' ∧ d'.Mirrors (f m)) :
    ∃ a', change f c a = .ok () a' ∧ a'.Has (f m) := by
  cases a with
  | memory a =>
    obtain rfl : a = m := h
    exact ⟨_, rfl, rfl⟩
  | directory d =>
    obtain ⟨d', hrun, h'⟩ := hc d h
    exact ⟨.directory d', by rw [Archive.change, hrun], h'⟩

theorem Has.saveState (h : a.Has m) (s : Share) (state : Bytes) :
    ∃ a', Archive.saveState s state a = .ok () a' ∧ a'.Has (m.saveState s state) :=
  h.change fun _ hd => hd.saveState s state

theorem Has.saveManifest (h : a.Has m) (n : Manifest) :
    ∃ a', Archive.saveManifest n a = .ok () a' ∧ a'.Has (m.saveManifest n) :=
  h.change fun _ hd => hd.saveManifest n

theorem Has.purge (h : a.Has m) (p : UInt32) (keep : ℕ) :
    ∃ a', Archive.purge p keep a = .ok () a' ∧ a'.Has (m.purge p keep) :=
  h.change fun _ hd => hd.purge p keep

theorem Has.list_eq (h : a.Has m) (p : UInt32) : a.list p = .ok (m.list p) := by
  cases a with
  | memory a =>
    obtain rfl : a = m := h
    rfl
  | directory d => exact DirectoryArchive.Mirrors.list_eq h p

theorem Has.latest_eq (h : a.Has m) (p : UInt32) : a.latest p = .ok (m.list p).getLast? := by
  rw [latest, h.list_eq]
  rfl

theorem Has.loadState (h : a.Has m) (s : Share) : (a.loadState s).toOption = m.states[s]? := by
  cases a with
  | memory a =>
    obtain rfl : a = m := h
    simp only [Archive.loadState]
    cases a.states[s]? <;> rfl
  | directory d => exact DirectoryArchive.Mirrors.loadState h s

theorem Has.loadManifest (h : a.Has m) (s : Share) :
    (a.loadManifest s).toOption = m.manifests[s]? := by
  cases a with
  | memory a =>
    obtain rfl : a = m := h
    simp only [Archive.loadManifest]
    cases a.manifests[s]? <;> rfl
  | directory d => exact DirectoryArchive.Mirrors.loadManifest h s

theorem has_inMemory : inMemory.Has {} := rfl

theorem has_inDirectory (top : String) : (inDirectory top).Has {} :=
  DirectoryArchive.mirrors_empty top

end Archive

namespace Station

variable {τ β γ : Type}

theorem onArchive_bind {c : Command Archive β} {k : β → Command (Station τ) γ} {s : Station τ} {x : β}
    {archive : Archive} (h : c s.archive = .ok x archive) :
    (onArchive c >>= k) s = k x { s with archive } := by
  rw [Command.run_bind, onArchive, Command.focus, h]

theorem run_onTarget (c : Command τ β) (s : Station τ) :
    onTarget c s =
      match c s.target with
      | .ok x target => .ok x { s with target }
      | .error e target => .error e { s with target } := by
  cases h : c s.target <;> simp only [onTarget, Command.focus, h]

variable {t : Target τ} {b : Barrier} {s s' : Station τ} {m : MemoryArchive}

/-- The manifest of a checkpoint. -/
def manifestOf (t : Target τ) (b : Barrier) (p : UInt32) (target : τ) (state : Bytes) : Manifest :=
  ⟨b.id, b.timestamp, p, t.progress target, .ofNat state.length⟩

/-- An id that is not newer is refused. -/
theorem checkNewer_cases (id : UInt64) (s : Station τ) :
    ((∀ last, s.coordinator.last = some last → ¬ id ≤ last) ∧ checkNewer id s = .ok () s) ∨
      ∃ last, s.coordinator.last = some last ∧ id ≤ last ∧
        checkNewer id s = .error (.staleBarrier id last) s := by
  unfold checkNewer
  rw [Command.run_bind, Command.run_get]
  dsimp only
  cases s.coordinator.last with
  | none => exact .inl ⟨fun _ h => (nomatch h), rfl⟩
  | some last =>
    by_cases hle : id ≤ last
    · exact .inr ⟨last, rfl, hle, by simp only [if_pos hle]; rfl⟩
    · refine .inl ⟨fun _ h => Option.some.inj h ▸ hle, ?_⟩
      simp only [if_neg hle]
      rfl

/-- What a barrier asks for before anything is saved: to be newer than the last, and a state. -/
def offer (t : Target τ) (b : Barrier) : Command (Station τ) Bytes := do
  checkNewer b.id
  onTarget t.prepare
  onTarget t.snapshot

/-- Save an offered state, and remove older checkpoints. -/
def save (t : Target τ) (b : Barrier) (state : Bytes) : Command (Station τ) Manifest := do
  let s ← get
  let c := s.coordinator
  let manifest := manifestOf t b c.partition s.target state
  onArchive (Archive.saveState manifest.share state)
  onArchive (Archive.saveManifest manifest)
  onArchive (Archive.purge c.partition c.retained)
  note b.id
  return manifest

theorem takeCheckpoint_eq_bind (t : Target τ) (b : Barrier) :
    takeCheckpoint t b = offer t b >>= save t b := by
  simp only [offer, bind_assoc]
  rfl

/-- Why a barrier is refused. -/
inductive Refuses (t : Target τ) (b : Barrier) (s : Station τ) : Prop
  | stale {last : UInt64} (hlast : s.coordinator.last = some last) (hle : b.id ≤ last)
  | unprepared {e : Error} {target : τ} (h : t.prepare s.target = .error e target)
  | unread {prepared target : τ} {e : Error} (hprepare : t.prepare s.target = .ok () prepared)
      (hsnapshot : t.snapshot prepared = .error e target)

/-- A state is offered unless the coordinator or the target refuses. -/
theorem offer_cases (t : Target τ) (b : Barrier) (s : Station τ) :
    (Refuses t b s ∧ ∃ e target, offer t b s = .error e { s with target }) ∨
    (¬ Refuses t b s ∧ ∃ prepared state target, t.prepare s.target = .ok () prepared ∧
      t.snapshot prepared = .ok state target ∧ offer t b s = .ok state { s with target }) := by
  unfold offer
  rw [Command.run_bind]
  obtain ⟨hnew, hnewer⟩ | ⟨last, hlast, hle, hstale⟩ := checkNewer_cases b.id s
  · rw [hnewer]
    dsimp only
    rw [Command.run_bind, run_onTarget]
    cases hprepare : t.prepare s.target with
    | error e target => exact .inl ⟨.unprepared hprepare, e, target, rfl⟩
    | ok _ prepared =>
      dsimp only
      rw [run_onTarget]
      cases hsnapshot : t.snapshot prepared with
      | error e target => exact .inl ⟨.unread hprepare hsnapshot, e, target, rfl⟩
      | ok state target =>
        refine .inr ⟨?_, prepared, state, target, rfl, hsnapshot, rfl⟩
        rintro (⟨hlast, hle⟩ | herror | ⟨hprepare', herror⟩)
        · exact hnew _ hlast hle
        · rw [hprepare] at herror
          cases herror
        · rw [hprepare] at hprepare'
          obtain ⟨_, rfl⟩ := EStateM.Result.ok.inj hprepare'
          rw [hsnapshot] at herror
          cases herror
  · rw [hstale]
    exact .inl ⟨.stale hlast hle, _, s.target, rfl⟩

theorem save_eq {state : Bytes} {a₁ a₂ a₃ : Archive}
    (hstate : Archive.saveState ⟨b.id, s.coordinator.partition⟩ state s.archive = .ok () a₁)
    (hmanifest : Archive.saveManifest (manifestOf t b s.coordinator.partition s.target state) a₁ =
      .ok () a₂)
    (hpurge : Archive.purge s.coordinator.partition s.coordinator.retained a₂ = .ok () a₃) :
    save t b state s = .ok (manifestOf t b s.coordinator.partition s.target state)
      ⟨{ s.coordinator with last := some b.id }, a₃, s.target⟩ := by
  unfold save
  rw [Command.run_get_bind]
  refine (onArchive_bind hstate).trans ?_
  refine (onArchive_bind (s := ⟨s.coordinator, a₁, s.target⟩) hmanifest).trans ?_
  exact onArchive_bind (s := ⟨s.coordinator, a₂, s.target⟩) hpurge

theorem exists_save (h : s.archive.Has m) (t : Target τ) (b : Barrier) (state : Bytes) :
    let n := manifestOf t b s.coordinator.partition s.target state
    ∃ archive, archive.Has (m.record n state s.coordinator.retained) ∧
      save t b state s = .ok n ⟨{ s.coordinator with last := some b.id }, archive, s.target⟩ := by
  intro n
  obtain ⟨a₁, hstate, has₁⟩ := h.saveState n.share state
  obtain ⟨a₂, hmanifest, has₂⟩ := has₁.saveManifest n
  obtain ⟨a₃, hpurge, has₃⟩ := has₂.purge s.coordinator.partition s.coordinator.retained
  exact ⟨a₃, has₃, save_eq hstate hmanifest hpurge⟩

/-- A checkpoint is refused by the coordinator or by the target, and then nothing is saved, or it
is taken. -/
theorem takeCheckpoint_cases (h : s.archive.Has m) (t : Target τ) (b : Barrier) :
    (∃ e target, takeCheckpoint t b s = .error e { s with target }) ∨
    ∃ prepared state target archive, t.prepare s.target = .ok () prepared ∧
      t.snapshot prepared = .ok state target ∧
      let n := manifestOf t b s.coordinator.partition target state
      archive.Has (m.record n state s.coordinator.retained) ∧
      takeCheckpoint t b s =
        .ok n ⟨{ s.coordinator with last := some b.id }, archive, target⟩ := by
  rw [takeCheckpoint_eq_bind, Command.run_bind]
  obtain ⟨_, e, target, hoffer⟩ | ⟨_, prepared, state, target, hprepare, hsnapshot, hoffer⟩ :=
    offer_cases t b s
  · rw [hoffer]
    exact .inl ⟨e, target, rfl⟩
  · rw [hoffer]
    obtain ⟨archive, hhas, hsave⟩ := exists_save (s := { s with target }) h t b state
    exact .inr ⟨prepared, state, target, archive, hprepare, hsnapshot, hhas, hsave⟩

/-- The command leaves the archive as it is. -/
def Spares (c : Command (Station τ) β) : Prop := ∀ s, (c.after s).archive = s.archive

theorem Spares.bind {c : Command (Station τ) β} {k : β → Command (Station τ) γ} (hc : Spares c)
    (hk : ∀ x, Spares (k x)) : Spares (c >>= k) := Command.Retains.bind hc hk

theorem composes_spares : Command.Composes (Spares (τ := τ)) := ⟨fun _ _ => rfl, Spares.bind⟩

theorem spares_get {k : Station τ → Command (Station τ) γ} (h : ∀ s, Spares (k s)) :
    Spares (get >>= k) := fun s => h s s

theorem spares_ofExcept (x : Except Error β) :
    Spares (Command.ofExcept x : Command (Station τ) β) := Command.retains_ofExcept x

theorem spares_onTarget (c : Command τ β) : Spares (onTarget c) :=
  Command.retains_focus c fun _ _ => rfl

theorem spares_restoreFrom (t : Target τ) (id : UInt64) : Spares (restoreFrom t id) := by
  unfold restoreFrom
  refine spares_get fun s => (spares_ofExcept _).bind fun n => ?_
  refine (spares_ofExcept _).bind fun state => ?_
  exact (spares_onTarget _).bind fun _ _ => rfl

theorem spares_restoreLatest (t : Target τ) : Spares (restoreLatest t) := by
  unfold restoreLatest
  refine spares_get fun s => (spares_ofExcept _).bind fun newest => ?_
  cases newest with
  | none => exact fun _ => rfl
  | some id => exact composes_spares.map (spares_restoreFrom t id) some

/-- Restoring from a checkpoint that is there hands its state to the target. -/
theorem restoreFrom_eq {n : Manifest} {state : Bytes}
    (hmanifest : s.archive.loadManifest ⟨n.id, s.coordinator.partition⟩ = .ok n)
    (hstate : s.archive.loadState ⟨n.id, s.coordinator.partition⟩ = .ok state) (t : Target τ) :
    restoreFrom t n.id s =
      match t.restore state s.target with
      | .ok _ target => .ok n { s with
          target, coordinator := { s.coordinator with last := some n.id } }
      | .error e target =>
        .error (.inContext s!"restore from checkpoint {n.id}" e) { s with target } := by
  unfold restoreFrom
  rw [Command.run_get_bind, Command.run_bind]
  dsimp only [Command.ofExcept]
  rw [hmanifest]
  dsimp only
  rw [Command.run_bind]
  dsimp only [Command.ofExcept]
  rw [hstate]
  dsimp only
  rw [Command.run_bind, run_onTarget, Command.inContext, Command.mapError]
  cases t.restore state s.target <;> rfl

theorem restoreLatest_of_none
    (hlatest : s.archive.latest s.coordinator.partition = .ok none) (t : Target τ) :
    restoreLatest t s = .ok none s := by
  unfold restoreLatest
  rw [Command.run_get_bind, Command.run_bind, hlatest]
  rfl

theorem restoreLatest_of_some {id : UInt64}
    (hlatest : s.archive.latest s.coordinator.partition = .ok (some id)) (t : Target τ) :
    restoreLatest t s = (some <$> restoreFrom t id) s := by
  unfold restoreLatest
  rw [Command.run_get_bind, Command.run_bind, hlatest]
  rfl

/-- The newest checkpoint is restored. -/
theorem restoreLatest_eq {n : Manifest} {state : Bytes}
    (hlatest : s.archive.latest s.coordinator.partition = .ok (some n.id))
    (hmanifest : s.archive.loadManifest ⟨n.id, s.coordinator.partition⟩ = .ok n)
    (hstate : s.archive.loadState ⟨n.id, s.coordinator.partition⟩ = .ok state) (t : Target τ) :
    restoreLatest t s =
      match t.restore state s.target with
      | .ok _ target => .ok (some n) { s with
          target, coordinator := { s.coordinator with last := some n.id } }
      | .error e target =>
        .error (.inContext s!"restore from checkpoint {n.id}" e) { s with target } := by
  rw [restoreLatest_of_some hlatest, map_eq_pure_bind, Command.run_bind,
    restoreFrom_eq hmanifest hstate]
  cases t.restore state s.target <;> rfl

end Station

/-- The archives that histories of coordinators leave, whatever their targets are. -/
inductive Archive.Used : Archive → Prop
  | inMemory : Used .inMemory
  | inDirectory (top : String) : Used (.inDirectory top)
  | takeCheckpoint {τ : Type} (t : Target τ) (b : Barrier) {s : Station τ} (h : Used s.archive) :
    Used ((Station.takeCheckpoint t b).after s).archive
  | restoreFrom {τ : Type} (t : Target τ) (id : UInt64) {s : Station τ} (h : Used s.archive) :
    Used ((Station.restoreFrom t id).after s).archive
  | restoreLatest {τ : Type} (t : Target τ) {s : Station τ} (h : Used s.archive) :
    Used ((Station.restoreLatest t).after s).archive

/-- Such an archive has what some archive in memory has. -/
theorem Archive.Used.exists_has {a : Archive} (h : a.Used) : ∃ m, a.Has m := by
  induction h with
  | inMemory => exact ⟨_, has_inMemory⟩
  | inDirectory top => exact ⟨_, has_inDirectory top⟩
  | takeCheckpoint t b _ ih =>
    obtain ⟨m, hm⟩ := ih
    rcases Station.takeCheckpoint_cases hm t b with
      ⟨e, target, hrun⟩ | ⟨_, state, target, archive, _, _, hhas, hrun⟩
    · rw [Command.after, hrun]
      exact ⟨m, hm⟩
    · rw [Command.after, hrun]
      exact ⟨_, hhas⟩
  | @restoreFrom τ t id s _ ih => rwa [Station.spares_restoreFrom t id s]
  | @restoreLatest τ t s _ ih => rwa [Station.spares_restoreLatest t s]

namespace Station

variable {τ : Type}

theorem toOption_eq_some {β : Type} {x : Except Error β} {y : β} :
    x.toOption = some y ↔ x = .ok y := by
  cases x <;> simp [Except.toOption]

/-- The archive after a checkpoint was taken. -/
theorem exists_taken {t : Target τ} {b : Barrier} {s s' : Station τ} {n : Manifest}
    {m : MemoryArchive} (h : s.archive.Has m) (htake : takeCheckpoint t b s = .ok n s') :
    ∃ prepared state, t.prepare s.target = .ok () prepared ∧
      t.snapshot prepared = .ok state s'.target ∧
      n = manifestOf t b s.coordinator.partition s'.target state ∧
      s'.archive.Has (m.record n state s.coordinator.retained) := by
  rcases takeCheckpoint_cases h t b with
    ⟨e, target, hrun⟩ | ⟨prepared, state, target, archive, hprepare, hsnapshot, hhas, hrun⟩
  · rw [htake] at hrun
    cases hrun
  · rw [htake] at hrun
    obtain ⟨rfl, rfl⟩ := EStateM.Result.ok.inj hrun
    exact ⟨prepared, state, hprepare, hsnapshot, rfl, hhas⟩

/-- What was saved can be loaded, by manifest and by state, while fewer newer checkpoints of the
partition are there than are kept. It is the newest when no newer one was there, and then it is what
the next coordinator of the partition restores. -/
theorem recoverable (t : Target τ) (b : Barrier) {c : Coordinator} {a : Archive} {target : τ}
    {s' : Station τ} {n : Manifest} (hused : a.Used) (hretained : 0 < c.retained)
    (htake : takeCheckpoint t b ⟨c, a, target⟩ = .ok n s') :
    ∃ prepared state ids, t.prepare target = .ok () prepared ∧
      t.snapshot prepared = .ok state s'.target ∧
      n = manifestOf t b c.partition s'.target state ∧
      a.list c.partition = .ok ids ∧
      (s'.archive.loadManifest ⟨b.id, c.partition⟩ = .ok n ↔
        (ids.filter (b.id < ·)).length < c.retained) ∧
      (s'.archive.loadState ⟨b.id, c.partition⟩ = .ok state ↔
        (ids.filter (b.id < ·)).length < c.retained) ∧
      (s'.archive.latest c.partition = .ok (some b.id) ↔ ∀ id ∈ ids, id ≤ b.id) ∧
      ((∀ id ∈ ids, id ≤ b.id) → ∀ {ρ : Type} (t' : Target ρ) (r : Station ρ),
        r.archive = s'.archive → r.coordinator.partition = c.partition →
          restoreLatest t' r = match t'.restore state r.target with
            | .ok _ target => .ok (some n) { r with
                target, coordinator := { r.coordinator with last := some b.id } }
            | .error e target =>
              .error (.inContext s!"restore from checkpoint {b.id}" e) { r with target }) := by
  obtain ⟨m, hm⟩ := hused.exists_has
  obtain ⟨prepared, state, hprepare, hsnapshot, rfl, hhas⟩ := exists_taken hm htake
  have hkept : ∀ {β : Type} {x : Except Error β} {y : β},
      x.toOption = (if c.retained ≤ ((m.list c.partition).filter (b.id < ·)).length then none
        else some y) →
      (x = .ok y ↔ ((m.list c.partition).filter (b.id < ·)).length < c.retained) := by
    intro β x y hx
    rw [← toOption_eq_some, hx]
    split <;> simp <;> omega
  have hmanifest := hkept ((hhas.loadManifest _).trans (m.manifests_record _ state c.retained))
  have hstate := hkept ((hhas.loadState _).trans (m.states_record _ state c.retained))
  have hlatest : s'.archive.latest c.partition = .ok (some b.id) ↔
      ∀ id ∈ m.list c.partition, id ≤ b.id := by
    rw [hhas.latest_eq, Except.ok.injEq]
    exact m.getLast?_list_record _ state hretained
  refine ⟨prepared, state, _, hprepare, hsnapshot, rfl, hm.list_eq _, hmanifest, hstate, hlatest, ?_⟩
  intro hnewest ρ t' r harchive hpartition
  have hfew : ((m.list c.partition).filter (b.id < ·)).length < c.retained := by
    have hnone : (m.list c.partition).filter (b.id < ·) = [] := by
      rw [List.filter_eq_nil_iff]
      exact fun id hmem => by simpa using hnewest id hmem
    rw [hnone]
    exact hretained
  obtain ⟨⟨p, keep, last⟩, archive, target'⟩ := r
  obtain rfl : archive = s'.archive := harchive
  obtain rfl : p = c.partition := hpartition
  exact restoreLatest_eq (hlatest.2 hnewest) (hmanifest.2 hfew) (hstate.2 hfew) t'

/-- The first coordinator took checkpoint 5. The next one takes 7 and keeps no other. -/
theorem recoverable_second :
    let t := Operator.target Int64 Int64 Int64
    let job := Job.wrappingSums ⟨{ shape := .tumbling 10 }, by decide⟩
    let o := (job.take (.record 0 1 1 7)).after (job.start {})
    let a := ((takeCheckpoint t ⟨5, 0⟩).after ⟨{ partition := 0 }, .inMemory, o⟩).archive
    a.Used ∧ ∃ n s', takeCheckpoint t ⟨7, 0⟩ ⟨{ partition := 0, retained := 1 }, a, o⟩ = .ok n s' ∧
      s'.archive.loadManifest ⟨7, 0⟩ = .ok n ∧ s'.archive.latest 0 = .ok (some 7) := by
  intro t job o a
  have hused : a.Used := .takeCheckpoint t ⟨5, 0⟩ .inMemory
  have htaken : ((takeCheckpoint t ⟨7, 0⟩).answer
      ⟨{ partition := 0, retained := 1 }, a, o⟩).toOption.isSome := by decide +kernel
  have hlist : a.list 0 = .ok [5] := toOption_eq_some.1 (by decide +kernel)
  obtain ⟨n, hn⟩ := Option.isSome_iff_exists.1 htaken
  obtain ⟨_, _, ids, _, _, _, hids, hmanifest, _, hlatest, _⟩ :=
    recoverable t ⟨7, 0⟩ hused Nat.one_pos (Command.run_of_answer hn)
  obtain rfl : ids = [5] := Except.ok.inj (hids.symm.trans hlist)
  exact ⟨hused, n, _, Command.run_of_answer hn, hmanifest.2 (by decide), hlatest.2 (by simp)⟩

/-- A checkpoint is taken and removed at once where a newer one is kept. -/
theorem taken_and_removed :
    let t := Operator.target Int64 Int64 Int64
    let job := Job.wrappingSums ⟨{ shape := .tumbling 10 }, by decide⟩
    let o := (job.take (.record 0 1 1 7)).after (job.start {})
    let a := ((takeCheckpoint t ⟨5, 0⟩).after ⟨{ partition := 0 }, .inMemory, o⟩).archive
    let s : Station (Operator Int64 Int64 Int64) := ⟨{ partition := 0, retained := 1 }, a, o⟩
    a.Used ∧ ∃ n s', takeCheckpoint t ⟨3, 0⟩ s = .ok n s' ∧
      (s'.archive.loadManifest ⟨3, 0⟩).toOption = none ∧
      (s'.archive.loadState ⟨3, 0⟩).toOption = none ∧
      s'.archive.latest 0 = .ok (some 5) := by
  intro t job o a s
  have htaken : ((takeCheckpoint t ⟨3, 0⟩).answer s).toOption.isSome := by decide +kernel
  obtain ⟨n, hn⟩ := Option.isSome_iff_exists.1 htaken
  refine ⟨.takeCheckpoint t ⟨5, 0⟩ .inMemory, n, _, Command.run_of_answer hn, ?_, ?_, ?_⟩
  · decide +kernel
  · decide +kernel
  · exact toOption_eq_some.1 (by decide +kernel)

end Station

end Tidemark
